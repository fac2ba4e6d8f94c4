/-
# LexLang.Ast.NodeIds — the ids of the nodes of a stage

`collect_ids` (`lex-ast/src/ids.rs`) numbers the nodes of a stage: a child has the id of its parent and its
index among the children. The transforms (`lex-ast/src/transforms.rs`) walk back: they read the indices of
an id and step into one child after another. The two count by definitions of their own; `navigates_iff`
says that they count alike.

A reference to a node is where it stands, as the fields on the way to it, and what stands there.
-/
import LexLang.Ast.Canonical
import LexLang.Graph.Preorder
import LexLang.Text.Decimal

namespace LexLang.Ast

open LexLang.Graph
open List Option

/-! ## Nodes and their children -/

/-- A node of a stage. -/
inductive NodeRef
  | stage (s : Stage)
  | expr (e : CExpr)
  | pattern (p : Pattern)
  | type (t : TypeExpr)

/-- The field of a node that holds another one. -/
inductive Slot
  | param (i : Nat) | returnType | definition
  | callee | arg (i : Nat) | value | body | scrutinee | armPattern (i : Nat) | armBody (i : Nat)
  | statement (i : Nat) | result | item (i : Nat) | field (i : Nat) | lhs | rhs | expr
  | ret | variant (i : Nat) | base | predicate

/-- The arms of a match, each a pattern and a body. -/
def armChildren : Nat → List (Pattern × CExpr) → List (Slot × NodeRef)
  | _, [] => []
  | i, (p, body) :: arms => (.armPattern i, .pattern p) :: (.armBody i, .expr body) :: armChildren (i + 1) arms

/-- What `walk_expr` emits of an expression, in order. -/
def exprChildren : CExpr → List (Slot × NodeRef)
  | .literal _ | .var _ => []
  | .call callee args => (.callee, .expr callee) :: args.mapIdx fun i a => (.arg i, .expr a)
  | .letE _ _ value body => [(.value, .expr value), (.body, .expr body)]
  | .matchE scrutinee arms => (.scrutinee, .expr scrutinee) :: armChildren 0 arms
  | .block statements result =>
    (statements.mapIdx fun i e => (.statement i, .expr e)) ++ [(.result, .expr result)]
  | .constructor _ args => args.mapIdx fun i a => (.arg i, .expr a)
  | .recordLit fields => fields.mapIdx fun i f => (.field i, .expr f.2)
  | .tupleLit items | .listLit items => items.mapIdx fun i e => (.item i, .expr e)
  | .fieldAccess value _ => [(.value, .expr value)]
  | .lambda _ _ _ _ body => [(.body, .expr body)]
  | .binOp _ lhs rhs => [(.lhs, .expr lhs), (.rhs, .expr rhs)]
  | .unaryOp _ expr => [(.expr, .expr expr)]
  | .returnE value => [(.value, .expr value)]

/-- What `walk_pat` emits of a pattern. -/
def patternChildren : Pattern → List (Slot × NodeRef)
  | .pLiteral _ | .pVar _ | .pWild => []
  | .pConstructor _ args => args.mapIdx fun i p => (.arg i, .pattern p)
  | .pRecord fields => fields.mapIdx fun i f => (.field i, .pattern f.2)
  | .pTuple items => items.mapIdx fun i p => (.item i, .pattern p)

/-- What `walk_type` emits of a type. A variant without a payload takes an index and emits nothing. -/
def typeChildren : TypeExpr → List (Option (Slot × NodeRef))
  | .named _ args => args.mapIdx fun i t => some (.arg i, .type t)
  | .record fields | .recordWithSpreads _ fields => fields.mapIdx fun i f => some (.field i, .type f.2)
  | .tuple items => items.mapIdx fun i t => some (.item i, .type t)
  | .function params _ _ ret =>
    (params.mapIdx fun i t => some (.param i, .type t)) ++ [some (.ret, .type ret)]
  | .union variants => variants.mapIdx fun i v => v.2.map fun t => (.variant i, .type t)
  | .refined base _ predicate => [some (.base, .type base), some (.predicate, .expr predicate)]

/-- What `walk_stage` emits of a stage. -/
def stageChildren : Stage → List (Slot × NodeRef)
  | .fnDecl fd => (fd.params.mapIdx fun i p => (.param i, .type p.2)) ++
      [(.returnType, .type fd.returnType), (.body, .expr fd.body)]
  | .typeDecl td => [(.definition, .type td.definition)]
  | .importDecl _ => []

/-- The children of a node, by index. -/
def childNodes : NodeRef → List (Option (Slot × NodeRef))
  | .stage s => (stageChildren s).map some
  | .expr e => (exprChildren e).map some
  | .pattern p => (patternChildren p).map some
  | .type t => typeChildren t

/-- The children that are emitted, with index and field. -/
def emitted (n : NodeRef) : List ((Nat × Slot) × NodeRef) :=
  (childNodes n).zipIdx.filterMap fun child => child.1.map fun c => ((child.2, c.1), c.2)

theorem mem_emitted_iff {n m : NodeRef} {i : Nat} {slot : Slot} :
    ((i, slot), m) ∈ emitted n ↔ (childNodes n)[i]? = some (some (slot, m)) := by
  simp only [emitted, mem_filterMap, Prod.exists, List.mem_zipIdx_iff_getElem?, map_eq_some_iff,
    Prod.mk.injEq]
  constructor
  · rintro ⟨_, _, h, _, _, rfl, ⟨rfl, rfl⟩, rfl⟩
    exact h
  · intro h
    exact ⟨_, _, h, _, _, rfl, ⟨rfl, rfl⟩, rfl⟩

theorem nodup_emitted (n : NodeRef) : ((emitted n).map fun e => e.1.1).Nodup := by
  have hsub : ∀ (cs : List (Option (Slot × NodeRef))) (k : Nat),
      List.Sublist (((cs.zipIdx k).filterMap fun child => child.1.map fun c => ((child.2, c.1), c.2)).map
        fun e => e.1.1) (List.range' k cs.length) := by
    intro cs
    induction cs with
    | nil => intro k; simp
    | cons c cs ih =>
      intro k
      rw [zipIdx_cons, length_cons, range'_succ]
      cases c with
      | none => exact (ih (k + 1)).cons k
      | some c => exact (ih (k + 1)).cons_cons k
  exact (hsub (childNodes n) 0).nodup nodup_range'

/-! ## `collect_ids` -/

/-- How large a node is. -/
noncomputable def NodeRef.size : NodeRef → Nat
  | .stage (.fnDecl fd) => sizeOf fd
  | .stage (.typeDecl td) => sizeOf td
  | .stage (.importDecl _) => 0
  | .expr e => sizeOf e
  | .pattern p => sizeOf p
  | .type t => sizeOf t

@[simp] theorem NodeRef.size_expr (e : CExpr) : (NodeRef.expr e).size = sizeOf e := rfl

@[simp] theorem NodeRef.size_pattern (p : Pattern) : (NodeRef.pattern p).size = sizeOf p := rfl

@[simp] theorem NodeRef.size_type (t : TypeExpr) : (NodeRef.type t).size = sizeOf t := rfl

theorem size_armChildren {k bound : Nat} {arms : List (Pattern × CExpr)} (h : sizeOf arms < bound) :
    ∀ c ∈ armChildren k arms, c.2.size < bound := by
  induction arms generalizing k with
  | nil => simp [armChildren]
  | cons arm arms ih =>
    obtain ⟨p, body⟩ := arm
    simp only [List.cons.sizeOf_spec, Prod.mk.sizeOf_spec] at h
    simp only [armChildren, forall_mem_cons, NodeRef.size_expr, NodeRef.size_pattern]
    exact ⟨by omega, by omega, ih (by omega)⟩

theorem sizeOf_getElem_lt {α : Type} [SizeOf α] (xs : List α) (i : Nat) (h : i < xs.length) :
    sizeOf xs[i] < sizeOf xs := sizeOf_lt_of_mem (getElem_mem h)

theorem forall_mem_mapIdx {α β : Type} {xs : List α} {f : Nat → α → β} {P : β → Prop} :
    (∀ c ∈ xs.mapIdx f, P c) ↔ ∀ i, ∀ h : i < xs.length, P (f i xs[i]) := by
  simp only [mem_mapIdx]
  exact ⟨fun hall i h => hall _ ⟨i, h, rfl⟩, fun hall c ⟨i, h, heq⟩ => heq ▸ hall i h⟩

theorem sizeOf_getElem_snd_lt {α β : Type} [SizeOf α] [SizeOf β] (xs : List (α × β)) (i : Nat)
    (h : i < xs.length) : sizeOf xs[i].2 < sizeOf xs := by
  have hlt := sizeOf_getElem_lt xs i h
  have hspec : ∀ p : α × β, sizeOf p = 1 + sizeOf p.1 + sizeOf p.2 := fun _ => rfl
  have := hspec xs[i]
  omega

/-- **A child is smaller than its parent.** -/
theorem emitted_smaller (n : NodeRef) : ∀ e ∈ emitted n, e.2.size < n.size := by
  have hall : ∀ c ∈ childNodes n, c.elim True fun child => child.2.size < n.size := by
    cases n with
    | stage s =>
      rcases s with ⟨fd⟩ | ⟨td⟩ | _
      · obtain ⟨name, typeParams, params, effects, effectRowVar, returnType, body, examples, doc⟩ := fd
        simp only [childNodes, stageChildren, List.forall_mem_map, forall_mem_append, forall_mem_mapIdx,
          forall_mem_cons, Option.elim, NodeRef.size, FnDecl.mk.sizeOf_spec]
        refine ⟨fun i h => ?_, by omega, by omega, by simp⟩
        have := sizeOf_getElem_snd_lt params i h
        omega
      · obtain ⟨name, params, definition, doc⟩ := td
        simp [childNodes, stageChildren, NodeRef.size]
        omega
      · simp [childNodes, stageChildren]
    | expr e =>
      cases e <;> simp only [childNodes, exprChildren, List.forall_mem_map, forall_mem_append,
        forall_mem_mapIdx, forall_mem_cons, not_mem_nil, false_implies, implies_true, and_true,
        Option.elim, NodeRef.size_expr]
      all_goals
        simp only [CExpr.call.sizeOf_spec, CExpr.letE.sizeOf_spec, CExpr.matchE.sizeOf_spec,
          CExpr.block.sizeOf_spec, CExpr.constructor.sizeOf_spec, CExpr.recordLit.sizeOf_spec,
          CExpr.tupleLit.sizeOf_spec, CExpr.listLit.sizeOf_spec, CExpr.fieldAccess.sizeOf_spec,
          CExpr.lambda.sizeOf_spec, CExpr.binOp.sizeOf_spec, CExpr.unaryOp.sizeOf_spec, CExpr.returnE.sizeOf_spec]
        repeat' apply And.intro
      all_goals first
        | omega
        | exact size_armChildren (by omega)
        | intro i h; have := sizeOf_getElem_lt _ i h; omega
        | intro i h; have := sizeOf_getElem_snd_lt _ i h; omega
    | pattern p =>
      cases p <;> simp only [childNodes, patternChildren, List.forall_mem_map, forall_mem_mapIdx,
        not_mem_nil, false_implies, implies_true, Option.elim, NodeRef.size_pattern,
        Pattern.pConstructor.sizeOf_spec, Pattern.pRecord.sizeOf_spec, Pattern.pTuple.sizeOf_spec]
      all_goals first
        | intro i h; have := sizeOf_getElem_lt _ i h; omega
        | intro i h; have := sizeOf_getElem_snd_lt _ i h; omega
    | type t =>
      cases t with
      | union variants =>
        simp only [childNodes, typeChildren, forall_mem_mapIdx, NodeRef.size_type, TypeExpr.union.sizeOf_spec]
        intro i h
        have hlt := sizeOf_getElem_snd_lt variants i h
        cases hv : variants[i].2 with
        | none => trivial
        | some t =>
          rw [hv, Option.some.sizeOf_spec] at hlt
          show sizeOf t < _
          omega
      | _ =>
        simp only [childNodes, typeChildren, forall_mem_append, forall_mem_mapIdx, forall_mem_cons,
          not_mem_nil, false_implies, implies_true, and_true, Option.elim, NodeRef.size_type,
          NodeRef.size_expr, TypeExpr.named.sizeOf_spec, TypeExpr.record.sizeOf_spec,
          TypeExpr.tuple.sizeOf_spec, TypeExpr.function.sizeOf_spec, TypeExpr.recordWithSpreads.sizeOf_spec,
          TypeExpr.refined.sizeOf_spec]
        repeat' apply And.intro
        all_goals first
          | omega
          | intro i h; have := sizeOf_getElem_lt _ i h; omega
          | intro i h; have := sizeOf_getElem_snd_lt _ i h; omega
  rintro ⟨⟨i, slot⟩, m⟩ he
  exact hall _ (mem_of_getElem? (mem_emitted_iff.mp he))

theorem emitted_finite : WellFounded (Child emitted) :=
  Subrelation.wf (fun ⟨l, h⟩ => emitted_smaller _ (l, _) h) (measure NodeRef.size).wf

/-- A node id. -/
abbrev NodeId := String

/-- The id of a stage. -/
def NodeId.root : NodeId := "n_0"

/-- The id of a child. -/
def NodeId.child (id : NodeId) (i : Nat) : NodeId := id ++ "." ++ toString i

/-- The id of what the indices lead to. -/
def NodeId.at (indices : List Nat) : NodeId := indices.foldl NodeId.child NodeId.root

/-- **The nodes of a stage with their ids**, each before its children. -/
def collectIds (stage : Stage) : List (NodeId × List Slot × NodeRef) :=
  (NodeId.root, [], .stage stage) ::
    (preorder emitted emitted_finite (.stage stage)).map fun e =>
      (NodeId.at (e.1.map Prod.fst), e.1.map Prod.snd, e.2)

/-! ## The way back -/

/-- Why a transform is refused. -/
inductive TransformError
  | unknownNode (id : NodeId)
  | notALet (id : NodeId) (foundKind : String)
  | badNodeId (id : NodeId)
  | nonFnTarget (stageKind : String)
  | renameNoOp (name : String)
  | inlineLetRefused (reason : String)
  | extractFnRefused (reason : String)
  deriving DecidableEq

/-- The indices of an id. -/
def parseNodeId (id : NodeId) : Except TransformError (List Nat) :=
  match id.toList.splitOn '.' with
  | ['n', '_', '0'] :: parts =>
    match parts.mapM parseUsize with
    | some indices => .ok indices
    | none => .error (.badNodeId id)
  | _ => .error (.badNodeId id)

/-- A place in an expression that can be written: which it is, what stands there, and the expression with
another in its place. -/
structure Place where
  slots : List Slot
  expr : CExpr
  put : CExpr → CExpr

/-- The place of an expression in itself. -/
def Place.here (e : CExpr) : Place := ⟨[], e, id⟩

/-- A place one step down. -/
def stepTo (slot : Slot) (e : CExpr) (put : CExpr → CExpr) : Option Place := some ⟨[slot], e, put⟩

/-- A place of one of the expressions of a list. -/
def stepItem (slot : Slot) (es : List CExpr) (i : Nat) (put : List CExpr → CExpr) : Option Place :=
  es[i]?.map fun e => ⟨[slot], e, fun e' => put (es.set i e')⟩

/-- **One step** into an expression. -/
def stepExpr : CExpr → Nat → Option Place
  | .call callee args, idx =>
    if idx = 0 then stepTo .callee callee fun e => .call e args
    else stepItem (.arg (idx - 1)) args (idx - 1) fun es => .call callee es
  | .letE name ty value body, idx =>
    match idx with
    | 0 => stepTo .value value fun e => .letE name ty e body
    | 1 => stepTo .body body fun e => .letE name ty value e
    | _ => none
  | .matchE scrutinee arms, idx =>
    if idx = 0 then stepTo .scrutinee scrutinee fun e => .matchE e arms
    else if (idx - 1) % 2 ≠ 1 then none
    else
      arms[(idx - 1) / 2]?.map fun arm => ⟨[.armBody ((idx - 1) / 2)], arm.2,
        fun e => .matchE scrutinee (arms.set ((idx - 1) / 2) (arm.1, e))⟩
  | .block statements result, idx =>
    if idx < statements.length then stepItem (.statement idx) statements idx fun es => .block es result
    else if idx = statements.length then stepTo .result result fun e => .block statements e
    else none
  | .constructor name args, idx => stepItem (.arg idx) args idx fun es => .constructor name es
  | .tupleLit items, idx => stepItem (.item idx) items idx fun es => .tupleLit es
  | .listLit items, idx => stepItem (.item idx) items idx fun es => .listLit es
  | .recordLit fields, idx =>
    fields[idx]?.map fun f => ⟨[.field idx], f.2, fun e => .recordLit (fields.set idx (f.1, e))⟩
  | .fieldAccess value field, idx =>
    if idx = 0 then stepTo .value value fun e => .fieldAccess e field else none
  | .lambda params returnType effects effectRowVar body, idx =>
    if idx = 0 then stepTo .body body fun e => .lambda params returnType effects effectRowVar e else none
  | .binOp op lhs rhs, idx =>
    match idx with
    | 0 => stepTo .lhs lhs fun e => .binOp op e rhs
    | 1 => stepTo .rhs rhs fun e => .binOp op lhs e
    | _ => none
  | .unaryOp op expr, idx => if idx = 0 then stepTo .expr expr fun e => .unaryOp op e else none
  | .returnE value, idx => if idx = 0 then stepTo .value value .returnE else none
  | .literal _, _ | .var _, _ => none

/-- **Step along some indices.** -/
def navigateToExpr (targetId : NodeId) : CExpr → List Nat → Except TransformError Place
  | e, [] => .ok (.here e)
  | e, i :: path =>
    match stepExpr e i with
    | none => .error (.unknownNode targetId)
    | some outer => do
      let inner ← navigateToExpr targetId outer.expr path
      pure ⟨outer.slots ++ inner.slots, inner.expr, fun e' => outer.put (inner.put e')⟩

/-- An id leads to a place in the body of a function: the first index is that of the body. -/
def Navigates (fd : FnDecl) (id : NodeId) (place : Place) : Prop :=
  ∃ path, parseNodeId id = .ok ((fd.params.length + 1) :: path) ∧
    navigateToExpr id fd.body path = .ok place

/-! ## The two agree -/

theorem armChildren_getElem? : ∀ (arms : List (Pattern × CExpr)) (k j : Nat),
    (armChildren k arms)[j]? = (arms[j / 2]?).map fun arm =>
      if j % 2 = 0 then (.armPattern (k + j / 2), .pattern arm.1) else (.armBody (k + j / 2), .expr arm.2)
  | [], k, j => by simp [armChildren]
  | (p, body) :: arms, k, 0 => by simp [armChildren]
  | (p, body) :: arms, k, 1 => by simp [armChildren]
  | (p, body) :: arms, k, j + 2 => by
    have hdiv : (j + 2) / 2 = j / 2 + 1 := by omega
    have hmod : (j + 2) % 2 = j % 2 := by omega
    show (armChildren (k + 1) arms)[j]? = _
    rw [armChildren_getElem? arms (k + 1) j, hdiv, hmod, List.getElem?_cons_succ,
      show k + 1 + j / 2 = k + (j / 2 + 1) by omega]

/-- **One step down is what is emitted under that index**, if it is an expression. -/
theorem stepExpr_spec (e : CExpr) (i : Nat) : ((stepExpr e i).map fun place => (place.slots, place.expr)) =
    (exprChildren e)[i]?.bind fun child => match child.2 with
      | .expr c => some ([child.1], c)
      | _ => none := by
  cases e with
  | matchE scrutinee arms =>
    cases i with
    | zero => rfl
    | succ j =>
      simp only [stepExpr, exprChildren, List.getElem?_cons_succ, armChildren_getElem?, Nat.add_sub_cancel,
        Nat.succ_ne_zero, if_false]
      rcases Nat.mod_two_eq_zero_or_one j with h | h <;> cases arms[j / 2]? <;> simp [h]
  | block statements result =>
    simp only [stepExpr, exprChildren, stepTo, stepItem]
    split_ifs with hlt heq
    · rw [List.getElem?_append_left (by simpa using hlt)]
      simp [hlt]
    · rw [List.getElem?_append_right (by simp; omega)]
      simp [heq]
    · rw [List.getElem?_eq_none (by simp; omega)]
      rfl
  | call callee args =>
    cases i with
    | zero => rfl
    | succ j => cases h : args[j]? <;> simp [stepExpr, exprChildren, stepItem, h]
  | literal | var => rfl
  | constructor _ es | tupleLit es | listLit es | recordLit es =>
    cases h : es[i]? <;> simp [stepExpr, exprChildren, stepItem, h]
  | letE | binOp =>
    rcases i with _ | _ | i <;> rfl
  | fieldAccess | lambda | unaryOp | returnE =>
    cases i <;> rfl

theorem mem_emitted_expr_iff {e c : CExpr} {i : Nat} {slot : Slot} : ((i, slot), .expr c) ∈ emitted (.expr e) ↔
      ∃ place, stepExpr e i = some place ∧ place.slots = [slot] ∧ place.expr = c := by
  have hspec := stepExpr_spec e i
  rw [mem_emitted_iff, childNodes, List.getElem?_map]
  constructor
  · intro h
    obtain ⟨child, hchild, heq⟩ := map_eq_some_iff.mp h
    cases heq
    rw [hchild] at hspec
    obtain ⟨place, hplace, heq⟩ := map_eq_some_iff.mp hspec
    exact ⟨place, hplace, congrArg Prod.fst heq, congrArg Prod.snd heq⟩
  · rintro ⟨place, hplace, hslots, rfl⟩
    rw [hplace] at hspec
    obtain ⟨child, hchild, heq⟩ := bind_eq_some_iff.mp hspec.symm
    rw [hchild]
    obtain ⟨slot', m⟩ := child
    cases m with
    | expr c' => simp_all
    | _ => cases heq

/-- Below an expression are expressions, and patterns with patterns below. -/
theorem expr_of_leads {e t : CExpr} {l : Nat × Slot} {ls : List (Nat × Slot)}
    (h : Leads emitted (.expr e) (l :: ls) (.expr t)) :
    ∃ c, (l, .expr c) ∈ emitted (.expr e) ∧ Leads emitted (.expr c) ls (.expr t) := by
  obtain ⟨m, hm, hleads⟩ := h
  have hpattern : ∀ (ls : List (Nat × Slot)) (p : Pattern), ¬ Leads emitted (.pattern p) ls (.expr t) := by
    intro ls
    induction ls with
    | nil => exact fun p hp => nomatch hp
    | cons l ls ih =>
      rintro p ⟨m, hm, hleads⟩
      have hmem := mem_of_getElem? (mem_emitted_iff.mp hm)
      have hchild : ∃ q, m = .pattern q := by
        cases p <;> simp [childNodes, patternChildren, mem_mapIdx] at hmem <;> grind
      obtain ⟨q, rfl⟩ := hchild
      exact ih q hleads
  have harms : ∀ (k : Nat) (arms : List (Pattern × CExpr)) (slot : Slot), (slot, m) ∈ armChildren k arms →
      (∃ c, m = .expr c) ∨ ∃ p, m = .pattern p := by
    intro k arms
    induction arms generalizing k with
    | nil => simp [armChildren]
    | cons arm arms ih =>
      intro slot hin
      simp only [armChildren, mem_cons, Prod.mk.injEq] at hin
      rcases hin with ⟨-, rfl⟩ | ⟨-, rfl⟩ | hin
      · exact .inr ⟨_, rfl⟩
      · exact .inl ⟨_, rfl⟩
      · exact ih (k + 1) slot hin
  have hmem := mem_of_getElem? (mem_emitted_iff.mp hm)
  have hkind : (∃ c, m = .expr c) ∨ ∃ p, m = .pattern p := by
    cases e <;> simp [childNodes, exprChildren, mem_mapIdx] at hmem <;> grind
  rcases hkind with ⟨c, rfl⟩ | ⟨p, rfl⟩
  · exact ⟨c, hm, hleads⟩
  · exact absurd hleads (hpattern ls p)

/-- **Navigation follows the labels**, and gets to every expression that labels lead to. -/
theorem navigateToExpr_iff (id : NodeId) (t : CExpr) (slots : List Slot) : ∀ (path : List Nat) (e : CExpr),
    (∃ place, navigateToExpr id e path = .ok place ∧ place.slots = slots ∧ place.expr = t) ↔
      ∃ ls : List (Nat × Slot), ls.map Prod.fst = path ∧ ls.map Prod.snd = slots ∧
        Leads emitted (.expr e) ls (.expr t)
  | [], e => by
    simp only [navigateToExpr, map_eq_nil_iff, exists_eq_left]
    constructor
    · rintro ⟨place, heq, rfl, rfl⟩
      cases heq
      exact ⟨rfl, rfl⟩
    · rintro ⟨rfl, heq⟩
      cases heq
      exact ⟨_, rfl, rfl, rfl⟩
  | i :: path, e => by
    constructor
    · rintro ⟨place, heq, rfl, rfl⟩
      unfold navigateToExpr at heq
      cases hstep : stepExpr e i with
      | none => rw [hstep] at heq; cases heq
      | some outer =>
        rw [hstep] at heq
        cases hinner : navigateToExpr id outer.expr path with
        | error err => simp only [hinner] at heq; cases heq
        | ok inner =>
          simp only [hinner] at heq
          cases heq
          obtain ⟨ls, rfl, hslots, hleads⟩ :=
            (navigateToExpr_iff id inner.expr inner.slots path outer.expr).mp ⟨inner, hinner, rfl, rfl⟩
          have hspec := stepExpr_spec e i
          rw [hstep] at hspec
          obtain ⟨⟨slot, m⟩, -, heq⟩ := bind_eq_some_iff.mp hspec.symm
          have hone : outer.slots = [slot] := by
            cases m with
            | expr c => exact (congrArg Prod.fst (some.inj heq)).symm
            | _ => cases heq
          exact ⟨(i, slot) :: ls, rfl, by simpa [hone] using hslots,
            _, mem_emitted_expr_iff.mpr ⟨outer, hstep, hone, rfl⟩, hleads⟩
    · rintro ⟨ls, hpath, rfl, hleads⟩
      cases ls with
      | nil => cases hpath
      | cons l ls =>
        obtain ⟨rfl, htail⟩ := List.cons.inj hpath
        obtain ⟨c, hc, hleads⟩ := expr_of_leads hleads
        obtain ⟨outer, hstep, hone, rfl⟩ := mem_emitted_expr_iff.mp hc
        obtain ⟨inner, hinner, hslots, rfl⟩ :=
          (navigateToExpr_iff id t (ls.map Prod.snd) path outer.expr).mpr ⟨ls, htail, rfl, hleads⟩
        refine ⟨⟨outer.slots ++ inner.slots, inner.expr, fun e' => outer.put (inner.put e')⟩, ?_, ?_, rfl⟩
        · simp only [navigateToExpr, hstep, hinner]
          rfl
        · simp [hone, hslots]

/-- **An id is read back as the indices it was made of.** -/
theorem parseNodeId_at (indices : List Nat) : parseNodeId (NodeId.at indices) = .ok indices := by
  have hlist : ∀ (indices : List Nat) (id : NodeId), (indices.foldl NodeId.child id).toList =
      id.toList ++ indices.flatMap fun i => '.' :: Nat.toDigits 10 i := by
    intro indices
    induction indices with
    | nil => simp
    | cons i indices ih =>
      intro id
      rw [foldl_cons, ih]
      simp [NodeId.child]
  have hsplit : ∀ (indices : List Nat) (cs : List Char), '.' ∉ cs →
      (cs ++ indices.flatMap fun i => '.' :: Nat.toDigits 10 i).splitOn '.' =
        cs :: indices.map (Nat.toDigits 10) := by
    intro indices
    induction indices with
    | nil => intro cs hcs; simpa using splitOn_eq_singleton hcs
    | cons i indices ih =>
      intro cs hcs
      rw [flatMap_cons, cons_append, splitOn_append_cons_self,
        splitOn_eq_singleton hcs, ih _ (dot_notMem_toDigits i)]
      rfl
  have hparse : ∀ indices : List Nat, (indices.map (Nat.toDigits 10)).mapM parseUsize = some indices := by
    intro indices
    induction indices with
    | nil => rfl
    | cons i indices ih => simp [mapM_cons, parseUsize_toDigits, ih]
  unfold parseNodeId NodeId.at
  rw [hlist, show NodeId.root.toList = ['n', '_', '0'] from rfl, hsplit _ _ (by decide)]
  simp only [hparse]

/-- The listing of the body of a function. -/
theorem mem_collectIds_body_iff {fd : FnDecl} {id : NodeId} {slots : List Slot} {t : CExpr} :
    (id, .body :: slots, .expr t) ∈ collectIds (.fnDecl fd) ↔ ∃ ls : List (Nat × Slot),
      id = NodeId.at ((fd.params.length + 1) :: ls.map Prod.fst) ∧ ls.map Prod.snd = slots ∧
        Leads emitted (.expr fd.body) ls (.expr t) := by
  have hbody : ∀ {i : Nat} {m : NodeRef}, ((i, .body), m) ∈ emitted (.stage (.fnDecl fd)) ↔
      i = fd.params.length + 1 ∧ m = .expr fd.body := by
    intro i m
    rw [mem_emitted_iff, childNodes, stageChildren, List.getElem?_map, List.getElem?_append]
    split_ifs with h
    · rw [length_mapIdx] at h
      simp [h]
      omega
    · rw [length_mapIdx] at *
      obtain ⟨k, rfl⟩ : ∃ k, i = fd.params.length + k := ⟨i - fd.params.length, by omega⟩
      rw [Nat.add_sub_cancel_left]
      rcases k with _ | _ | k <;> simp [eq_comm]
  simp only [collectIds, mem_cons, Prod.mk.injEq, reduceCtorEq, and_false, false_or,
    List.mem_map, Prod.exists, mem_preorder_iff]
  constructor
  · rintro ⟨ls, m, ⟨-, hleads⟩, rfl, hslots, rfl⟩
    cases ls with
    | nil => cases hslots
    | cons l ls =>
      obtain ⟨m, hm, hleads⟩ := hleads
      obtain ⟨i, slot⟩ := l
      obtain ⟨rfl, rfl⟩ := List.cons.inj hslots
      obtain ⟨rfl, rfl⟩ := hbody.mp hm
      exact ⟨ls, rfl, rfl, hleads⟩
  · rintro ⟨ls, rfl, rfl, hleads⟩
    exact ⟨(fd.params.length + 1, .body) :: ls, _, ⟨cons_ne_nil _ _, _, hbody.mpr ⟨rfl, rfl⟩, hleads⟩,
      rfl, rfl, rfl⟩

/-- **Numbering and navigation agree.** No two nodes of a stage have one id. The id of an expression in
the body of a function leads to where that expression stands. What an id leads to is listed, under the
plain spelling of that id. -/
theorem collectIds_navigates (fd : FnDecl) : ((collectIds (.fnDecl fd)).map Prod.fst).Nodup ∧
    (∀ id slots e, (id, .body :: slots, .expr e) ∈ collectIds (.fnDecl fd) →
      ∃ place, Navigates fd id place ∧ place.slots = slots ∧ place.expr = e) ∧
    ∀ id place, Navigates fd id place → ∃ indices, parseNodeId id = .ok indices ∧
      (NodeId.at indices, .body :: place.slots, .expr place.expr) ∈ collectIds (.fnDecl fd) := by
  have hinj : Function.Injective NodeId.at := fun a b h =>
    Except.ok.inj ((parseNodeId_at a).symm.trans ((congrArg parseNodeId h).trans (parseNodeId_at b)))
  refine ⟨?_, fun id slots e h => ?_, fun id place h => ?_⟩
  · rw [collectIds, map_cons, List.map_map, nodup_cons]
    constructor
    · intro hroot
      obtain ⟨⟨ls, m⟩, hmem, heq⟩ := List.mem_map.mp hroot
      have hnil := map_eq_nil_iff.mp (@hinj (ls.map Prod.fst) [] heq)
      exact (mem_preorder_iff.mp hmem).1 hnil
    · have hmap := (nodup_preorder emitted_finite nodup_emitted (.stage (.fnDecl fd))).map hinj
      rwa [List.map_map] at hmap
  · obtain ⟨ls, rfl, hslots, hleads⟩ := mem_collectIds_body_iff.mp h
    obtain ⟨place, hplace, hat⟩ :=
      (navigateToExpr_iff (NodeId.at ((fd.params.length + 1) :: ls.map Prod.fst)) e slots _ _).mpr
        ⟨ls, rfl, hslots, hleads⟩
    exact ⟨place, ⟨_, parseNodeId_at _, hplace⟩, hat⟩
  · obtain ⟨path, hparse, hplace⟩ := h
    obtain ⟨ls, rfl, hslots, hleads⟩ :=
      (navigateToExpr_iff id place.expr place.slots path fd.body).mp ⟨place, hplace, rfl, rfl⟩
    exact ⟨_, hparse, mem_collectIds_body_iff.mpr ⟨ls, rfl, hslots, hleads⟩⟩

/-- The body of `fn f() -> 1`. -/
def constantOne : FnDecl where
  name := "f"
  typeParams := []
  params := []
  effects := []
  effectRowVar := none
  returnType := .named "Int" []
  body := .literal (.int 1)
  examples := []
  doc := []

/-- **An index can be spelt in more than one way**: `n_0.01` leads to the body, and is not listed. -/
theorem spelledIndex_unlisted : ∃ place, Navigates constantOne "n_0.01" place ∧
    ∀ slots e, ("n_0.01", slots, e) ∉ collectIds (.fnDecl constantOne) := by
  refine ⟨.here (.literal (.int 1)), ⟨[], by decide +kernel, rfl⟩, fun slots e h => ?_⟩
  have hid : ∃ indices, "n_0.01" = NodeId.at indices := by
    rw [collectIds, mem_cons, List.mem_map] at h
    rcases h with h | ⟨e', -, h⟩
    · exact ⟨[], congrArg Prod.fst h⟩
    · exact ⟨_, (congrArg Prod.fst h).symm⟩
  obtain ⟨indices, hid⟩ := hid
  have hparse := parseNodeId_at indices
  rw [← hid, show parseNodeId "n_0.01" = .ok [1] by decide +kernel] at hparse
  cases hparse
  revert hid
  decide

end LexLang.Ast
