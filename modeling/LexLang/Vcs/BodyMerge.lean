/-
# LexLang.Vcs.BodyMerge — three-way merge of function bodies

`merge_bodies` (`lex-vcs/src/body_merge.rs`) merges two edited versions of a canonical expression
with the version they come from. Quick answers come first at every node: equal sides, or one side
unchanged. Where both sides changed a node, it is merged part by part when all three are of one kind
and have equally many parts, and conflicts otherwise.
-/
import LexLang.Ast.Equality
import LexLang.Ast.Induction
import LexLang.Order.ThreeWay

namespace LexLang.Vcs

open LexLang.Ast LexLang.Order
open Option

/-- Result of a three-way body merge. -/
inductive BodyMerge
  | merged (e : CExpr)
  | conflict

/-- Three-way pick of a part that is not merged any further. -/
def pick3 {α : Type} [DecidableEq α] (base ours theirs : α) : Option α :=
  if ours = theirs then some ours
  else if base = ours then some theirs
  else if base = theirs then some ours
  else none

mutual

/-- **The merge of a node**; `none` is a conflict. -/
def merge3 (base ours theirs : CExpr) : Option CExpr :=
  if ours = theirs then some ours
  else if base = ours then some theirs
  else if base = theirs then some ours
  else
    match base, ours, theirs with
    | .call cb ab, .call co ao, .call ct at' => do
      let callee ← merge3 cb co ct
      let args ← merge3Seq ab ao at'
      pure (.call callee args)
    | .letE nb yb vb bb, .letE no yo vo bo, .letE nt yt vt bt => do
      let name ← pick3 nb no nt
      let ty ← pick3 yb yo yt
      let value ← merge3 vb vo vt
      let body ← merge3 bb bo bt
      pure (.letE name ty value body)
    | .matchE sb amb, .matchE so amo, .matchE st amt => do
      let scrutinee ← merge3 sb so st
      let arms ← merge3Arms amb amo amt
      pure (.matchE scrutinee arms)
    | .block sb rb, .block so ro, .block st rt => do
      let statements ← merge3Seq sb so st
      let result ← merge3 rb ro rt
      pure (.block statements result)
    | .constructor nb ab, .constructor no ao, .constructor nt at' => do
      let name ← pick3 nb no nt
      let args ← merge3Seq ab ao at'
      pure (.constructor name args)
    | .tupleLit ib, .tupleLit io, .tupleLit it => do
      let items ← merge3Seq ib io it
      pure (.tupleLit items)
    | .listLit ib, .listLit io, .listLit it => do
      let items ← merge3Seq ib io it
      pure (.listLit items)
    | .recordLit fb, .recordLit fo, .recordLit ft => do
      let fields ← merge3Fields fb fo ft
      pure (.recordLit fields)
    | .fieldAccess vb fb, .fieldAccess vo fo, .fieldAccess vt ft => do
      let value ← merge3 vb vo vt
      let field ← pick3 fb fo ft
      pure (.fieldAccess value field)
    | .binOp ob lb rb, .binOp oo lo ro, .binOp ot lt rt => do
      let op ← pick3 ob oo ot
      let lhs ← merge3 lb lo lt
      let rhs ← merge3 rb ro rt
      pure (.binOp op lhs rhs)
    | .unaryOp ob eb, .unaryOp oo eo, .unaryOp ot et => do
      let op ← pick3 ob oo ot
      let expr ← merge3 eb eo et
      pure (.unaryOp op expr)
    | .returnE vb, .returnE vo, .returnE vt => do
      let value ← merge3 vb vo vt
      pure (.returnE value)
    | .lambda pb rtb eb rvb bb, .lambda po rto eo rvo bo, .lambda pt rtt et rvt bt => do
      let params ← pick3 pb po pt
      let returnType ← pick3 rtb rto rtt
      let effects ← pick3 eb eo et
      let effectRowVar ← pick3 rvb rvo rvt
      let body ← merge3 bb bo bt
      pure (.lambda params returnType effects effectRowVar body)
    -- literals and variables that both sides changed, or nodes of different kinds
    | _, _, _ => none
termination_by structural base

/-- Lists of one length, item by item. -/
def merge3Seq : List CExpr → List CExpr → List CExpr → Option (List CExpr)
  | [], [], [] => some []
  | b :: base, o :: ours, t :: theirs => do
    let e ← merge3 b o t
    let out ← merge3Seq base ours theirs
    pure (e :: out)
  | _, _, _ => none
termination_by structural x => x

/-- Arms, as many on each side: patterns are picked, bodies merged. -/
def merge3Arms :
    List (Pattern × CExpr) → List (Pattern × CExpr) → List (Pattern × CExpr) →
      Option (List (Pattern × CExpr))
  | [], [], [] => some []
  | (pb, bb) :: base, (po, bo) :: ours, (pt, bt) :: theirs => do
    let pattern ← pick3 pb po pt
    let body ← merge3 bb bo bt
    let out ← merge3Arms base ours theirs
    pure ((pattern, body) :: out)
  | _, _, _ => none
termination_by structural x => x

/-- Record fields, as many on each side: names are picked, values merged. -/
def merge3Fields :
    List (String × CExpr) → List (String × CExpr) → List (String × CExpr) →
      Option (List (String × CExpr))
  | [], [], [] => some []
  | (nb, vb) :: base, (no, vo) :: ours, (nt, vt) :: theirs => do
    let name ← pick3 nb no nt
    let value ← merge3 vb vo vt
    let out ← merge3Fields base ours theirs
    pure ((name, value) :: out)
  | _, _, _ => none
termination_by structural x => x

end

/-- **Three-way merge of a function body.** -/
def mergeBodies (base ours theirs : CExpr) : BodyMerge :=
  match merge3 base ours theirs with
  | some e => .merged e
  | none => .conflict

/-! ## Parts -/

section Pick

variable {α : Type} [DecidableEq α]

theorem quick_pick3 : Quick (pick3 : α → α → α → Option α) := by
  refine ⟨fun b o => if_pos rfl, fun b t => ?_, fun b o => ?_⟩
  · unfold pick3
    by_cases h : b = t <;> simp [h]
  · unfold pick3
    by_cases h : o = b
    · simp [h]
    · simp [h, Ne.symm h]

/-- A part that both sides changed, differently, is a conflict. -/
theorem pick3_lawful (b o t : α) : Lawful (Returns pick3) b o t := by
  apply quick_pick3.lawful (R := fun _ _ _ _ => False)
  · intro o t e hsides hours htheirs
    simp [pick3, hsides, hours, htheirs]
  · intro e h
    exact h.elim

end Pick

theorem quick_merge3 : Quick merge3 := by
  refine ⟨fun b o => ?_, fun b t => ?_, fun b o => ?_⟩
  · rw [merge3.eq_def, if_pos rfl]
  · rw [merge3.eq_def]
    by_cases h : b = t
    · rw [if_pos h, h]
    · rw [if_neg h, if_pos rfl]
  · rw [merge3.eq_def]
    by_cases h : o = b
    · rw [if_pos h]
    · rw [if_neg h, if_neg (Ne.symm h), if_pos rfl]

/-- **A node that both sides changed is merged part by part**: the three nodes and the result are of one
kind. -/
inductive Composed : CExpr → CExpr → CExpr → CExpr → Prop
  | call {cb co ct c : CExpr} {ab ao at' as : List CExpr} (callee : merge3 cb co ct = some c)
      (args : merge3Seq ab ao at' = some as) :
      Composed (.call cb ab) (.call co ao) (.call ct at') (.call c as)
  | letE {nb no nt n : String} {yb yo yt y : Option TypeExpr} {vb vo vt v bb bo bt b : CExpr}
      (name : pick3 nb no nt = some n) (ty : pick3 yb yo yt = some y)
      (value : merge3 vb vo vt = some v) (body : merge3 bb bo bt = some b) :
      Composed (.letE nb yb vb bb) (.letE no yo vo bo) (.letE nt yt vt bt) (.letE n y v b)
  | matchE {sb so st s : CExpr} {ab ao at' as : List (Pattern × CExpr)}
      (scrutinee : merge3 sb so st = some s) (arms : merge3Arms ab ao at' = some as) :
      Composed (.matchE sb ab) (.matchE so ao) (.matchE st at') (.matchE s as)
  | block {sb so st s : List CExpr} {rb ro rt r : CExpr} (statements : merge3Seq sb so st = some s)
      (result : merge3 rb ro rt = some r) :
      Composed (.block sb rb) (.block so ro) (.block st rt) (.block s r)
  | constructor {nb no nt n : String} {ab ao at' as : List CExpr} (name : pick3 nb no nt = some n)
      (args : merge3Seq ab ao at' = some as) :
      Composed (.constructor nb ab) (.constructor no ao) (.constructor nt at') (.constructor n as)
  | tupleLit {ib io it i : List CExpr} (items : merge3Seq ib io it = some i) :
      Composed (.tupleLit ib) (.tupleLit io) (.tupleLit it) (.tupleLit i)
  | listLit {ib io it i : List CExpr} (items : merge3Seq ib io it = some i) :
      Composed (.listLit ib) (.listLit io) (.listLit it) (.listLit i)
  | recordLit {fb fo ft f : List (String × CExpr)} (fields : merge3Fields fb fo ft = some f) :
      Composed (.recordLit fb) (.recordLit fo) (.recordLit ft) (.recordLit f)
  | fieldAccess {vb vo vt v : CExpr} {fb fo ft f : String} (value : merge3 vb vo vt = some v)
      (field : pick3 fb fo ft = some f) :
      Composed (.fieldAccess vb fb) (.fieldAccess vo fo) (.fieldAccess vt ft) (.fieldAccess v f)
  | binOp {ob oo ot o : String} {lb lo lt l rb ro rt r : CExpr} (op : pick3 ob oo ot = some o)
      (lhs : merge3 lb lo lt = some l) (rhs : merge3 rb ro rt = some r) :
      Composed (.binOp ob lb rb) (.binOp oo lo ro) (.binOp ot lt rt) (.binOp o l r)
  | unaryOp {ob oo ot o : String} {eb eo et e : CExpr} (op : pick3 ob oo ot = some o)
      (expr : merge3 eb eo et = some e) :
      Composed (.unaryOp ob eb) (.unaryOp oo eo) (.unaryOp ot et) (.unaryOp o e)
  | returnE {vb vo vt v : CExpr} (value : merge3 vb vo vt = some v) :
      Composed (.returnE vb) (.returnE vo) (.returnE vt) (.returnE v)
  | lambda {pb po pt p : List (String × TypeExpr)} {rb ro rt r : TypeExpr}
      {eb eo et e : List Effect} {vb vo vt v : Option String} {bb bo bt b : CExpr}
      (params : pick3 pb po pt = some p) (returnType : pick3 rb ro rt = some r)
      (effects : pick3 eb eo et = some e) (effectRowVar : pick3 vb vo vt = some v)
      (body : merge3 bb bo bt = some b) :
      Composed (.lambda pb rb eb vb bb) (.lambda po ro eo vo bo) (.lambda pt rt et vt bt)
        (.lambda p r e v b)

/-- Where no quick answer applies, merging is composing. -/
theorem merge3_eq_some_iff {b o t e : CExpr} (hsides : o ≠ t) (hours : b ≠ o) (htheirs : b ≠ t) :
    merge3 b o t = some e ↔ Composed b o t e := by
  rw [merge3.eq_def, if_neg hsides, if_neg hours, if_neg htheirs]
  constructor
  · intro h
    split at h
    case h_14 => cases h
    all_goals
      simp only [bind_eq_bind, bind_eq_some_iff, pure_def, some.injEq] at h
    · obtain ⟨_, h₁, _, h₂, rfl⟩ := h
      exact .call h₁ h₂
    · obtain ⟨_, h₁, _, h₂, _, h₃, _, h₄, rfl⟩ := h
      exact .letE h₁ h₂ h₃ h₄
    · obtain ⟨_, h₁, _, h₂, rfl⟩ := h
      exact .matchE h₁ h₂
    · obtain ⟨_, h₁, _, h₂, rfl⟩ := h
      exact .block h₁ h₂
    · obtain ⟨_, h₁, _, h₂, rfl⟩ := h
      exact .constructor h₁ h₂
    · obtain ⟨_, h₁, rfl⟩ := h
      exact .tupleLit h₁
    · obtain ⟨_, h₁, rfl⟩ := h
      exact .listLit h₁
    · obtain ⟨_, h₁, rfl⟩ := h
      exact .recordLit h₁
    · obtain ⟨_, h₁, _, h₂, rfl⟩ := h
      exact .fieldAccess h₁ h₂
    · obtain ⟨_, h₁, _, h₂, _, h₃, rfl⟩ := h
      exact .binOp h₁ h₂ h₃
    · obtain ⟨_, h₁, _, h₂, rfl⟩ := h
      exact .unaryOp h₁ h₂
    · obtain ⟨_, h₁, rfl⟩ := h
      exact .returnE h₁
    · obtain ⟨_, h₁, _, h₂, _, h₃, _, h₄, _, h₅, rfl⟩ := h
      exact .lambda h₁ h₂ h₃ h₄ h₅
  · intro h
    cases h <;> simp [*]

/-! ## Lists of parts -/

theorem merge3Seq_eq : ∀ b o t : List CExpr, merge3Seq b o t = items merge3 b o t
  | [], os, ts => by cases os <;> cases ts <;> simp [merge3Seq, items]
  | _ :: _, [], _ | _ :: _, _ :: _, [] => by simp [merge3Seq, items]
  | b :: bs, o :: os, t :: ts => by rw [merge3Seq, items, merge3Seq_eq bs os ts]

theorem merge3Arms_eq : ∀ b o t : List (Pattern × CExpr),
    merge3Arms b o t = items (both pick3 merge3) b o t
  | [], os, ts => by cases os <;> cases ts <;> simp [merge3Arms, items]
  | _ :: _, [], _ | _ :: _, _ :: _, [] => by simp [merge3Arms, items]
  | (pb, bb) :: bs, (po, bo) :: os, (pt, bt) :: ts => by
    rw [merge3Arms, items, merge3Arms_eq bs os ts]
    simp [both, bind_assoc, bind_map]

theorem merge3Fields_eq : ∀ b o t : List (String × CExpr),
    merge3Fields b o t = items (both pick3 merge3) b o t
  | [], os, ts => by cases os <;> cases ts <;> simp [merge3Fields, items]
  | _ :: _, [], _ | _ :: _, _ :: _, [] => by simp [merge3Fields, items]
  | (nb, vb) :: bs, (no, vo) :: os, (nt, vt) :: ts => by
    rw [merge3Fields, items, merge3Fields_eq bs os ts]
    simp [both, bind_assoc, bind_map]

/-- The laws hold at one expression, for all edits of it. -/
def LawfulAt (b : CExpr) : Prop := ∀ o t, Lawful (Returns merge3) b o t

theorem merge3Seq_lawful {bs : List CExpr} (h : ∀ b ∈ bs, LawfulAt b) (os ts : List CExpr) :
    Lawful (Returns merge3Seq) bs os ts := by
  rw [show (merge3Seq : _ → _ → _ → _) = items merge3 from
    funext fun b => funext fun o => funext fun t => merge3Seq_eq b o t]
  exact lawful_items h os ts

theorem merge3Arms_lawful {bs : List (Pattern × CExpr)} (h : ∀ b ∈ bs, LawfulAt b.2)
    (os ts : List (Pattern × CExpr)) : Lawful (Returns merge3Arms) bs os ts := by
  rw [show (merge3Arms : _ → _ → _ → _) = items (both pick3 merge3) from
    funext fun b => funext fun o => funext fun t => merge3Arms_eq b o t]
  exact lawful_items (fun b hb o t => (pick3_lawful _ _ _).both (h b hb o.2 t.2)) os ts

theorem merge3Fields_lawful {bs : List (String × CExpr)} (h : ∀ b ∈ bs, LawfulAt b.2)
    (os ts : List (String × CExpr)) : Lawful (Returns merge3Fields) bs os ts := by
  rw [show (merge3Fields : _ → _ → _ → _) = items (both pick3 merge3) from
    funext fun b => funext fun o => funext fun t => merge3Fields_eq b o t]
  exact lawful_items (fun b hb o t => (pick3_lawful _ _ _).both (h b hb o.2 t.2)) os ts

/-! ## The laws -/

/-- An expression is lawful when the composition of its parts is. -/
theorem lawfulAt_of_composed {b : CExpr} (h : ∀ o t, Lawful Composed b o t) : LawfulAt b :=
  fun o t => quick_merge3.lawful (fun _ _ _ => merge3_eq_some_iff) (h o t)

/-- **The laws hold at a node when they hold at its parts.** -/
theorem lawfulSteps : ExprSteps LawfulAt where
  literal value := lawfulAt_of_composed fun o t e h => by cases h
  var name := lawfulAt_of_composed fun o t e h => by cases h
  call callee args hcallee hargs := lawfulAt_of_composed fun o t e h => by
    cases h with
    | call hc ha =>
      have hc := hcallee _ _ _ hc
      have ha := merge3Seq_lawful hargs _ _ _ ha
      exact ⟨.call hc.swap ha.swap, .call hc.left ha.left, .call hc.right ha.right, fun heq => by
        injection heq with h₁ h₂
        simp [hc.base h₁, ha.base h₂]⟩
  letE name ty value body hvalue hbody := lawfulAt_of_composed fun o t e h => by
    cases h with
    | letE hn hy hv hb =>
      have hn := pick3_lawful _ _ _ _ hn
      have hy := pick3_lawful _ _ _ _ hy
      have hv := hvalue _ _ _ hv
      have hb := hbody _ _ _ hb
      exact ⟨.letE hn.swap hy.swap hv.swap hb.swap, .letE hn.left hy.left hv.left hb.left,
        .letE hn.right hy.right hv.right hb.right, fun heq => by
        injection heq with h₁ h₂ h₃ h₄
        simp [hn.base h₁, hy.base h₂, hv.base h₃, hb.base h₄]⟩
  matchE scrutinee arms hscrutinee harms := lawfulAt_of_composed fun o t e h => by
    cases h with
    | matchE hs ha =>
      have hs := hscrutinee _ _ _ hs
      have ha := merge3Arms_lawful harms _ _ _ ha
      exact ⟨.matchE hs.swap ha.swap, .matchE hs.left ha.left, .matchE hs.right ha.right,
        fun heq => by
        injection heq with h₁ h₂
        simp [hs.base h₁, ha.base h₂]⟩
  block statements result hstatements hresult := lawfulAt_of_composed fun o t e h => by
    cases h with
    | block hs hr =>
      have hs := merge3Seq_lawful hstatements _ _ _ hs
      have hr := hresult _ _ _ hr
      exact ⟨.block hs.swap hr.swap, .block hs.left hr.left, .block hs.right hr.right,
        fun heq => by
        injection heq with h₁ h₂
        simp [hs.base h₁, hr.base h₂]⟩
  constructor name args hargs := lawfulAt_of_composed fun o t e h => by
    cases h with
    | constructor hn ha =>
      have hn := pick3_lawful _ _ _ _ hn
      have ha := merge3Seq_lawful hargs _ _ _ ha
      exact ⟨.constructor hn.swap ha.swap, .constructor hn.left ha.left,
        .constructor hn.right ha.right, fun heq => by
        injection heq with h₁ h₂
        simp [hn.base h₁, ha.base h₂]⟩
  recordLit fields hfields := lawfulAt_of_composed fun o t e h => by
    cases h with
    | recordLit hf =>
      have hf := merge3Fields_lawful hfields _ _ _ hf
      exact ⟨.recordLit hf.swap, .recordLit hf.left, .recordLit hf.right, fun heq => by
        simp [hf.base (CExpr.recordLit.inj heq)]⟩
  tupleLit items hitems := lawfulAt_of_composed fun o t e h => by
    cases h with
    | tupleLit hi =>
      have hi := merge3Seq_lawful hitems _ _ _ hi
      exact ⟨.tupleLit hi.swap, .tupleLit hi.left, .tupleLit hi.right, fun heq => by
        simp [hi.base (CExpr.tupleLit.inj heq)]⟩
  listLit items hitems := lawfulAt_of_composed fun o t e h => by
    cases h with
    | listLit hi =>
      have hi := merge3Seq_lawful hitems _ _ _ hi
      exact ⟨.listLit hi.swap, .listLit hi.left, .listLit hi.right, fun heq => by
        simp [hi.base (CExpr.listLit.inj heq)]⟩
  fieldAccess value field hvalue := lawfulAt_of_composed fun o t e h => by
    cases h with
    | fieldAccess hv hf =>
      have hv := hvalue _ _ _ hv
      have hf := pick3_lawful _ _ _ _ hf
      exact ⟨.fieldAccess hv.swap hf.swap, .fieldAccess hv.left hf.left,
        .fieldAccess hv.right hf.right, fun heq => by
        injection heq with h₁ h₂
        simp [hv.base h₁, hf.base h₂]⟩
  lambda params returnType effects effectRowVar body hbody := lawfulAt_of_composed fun o t e h => by
    cases h with
    | lambda hp hr he hv hb =>
      have hp := pick3_lawful _ _ _ _ hp
      have hr := pick3_lawful _ _ _ _ hr
      have he := pick3_lawful _ _ _ _ he
      have hv := pick3_lawful _ _ _ _ hv
      have hb := hbody _ _ _ hb
      exact ⟨.lambda hp.swap hr.swap he.swap hv.swap hb.swap,
        .lambda hp.left hr.left he.left hv.left hb.left,
        .lambda hp.right hr.right he.right hv.right hb.right, fun heq => by
        injection heq with h₁ h₂ h₃ h₄ h₅
        simp [hp.base h₁, hr.base h₂, he.base h₃, hv.base h₄, hb.base h₅]⟩
  binOp op lhs rhs hlhs hrhs := lawfulAt_of_composed fun o t e h => by
    cases h with
    | binOp ho hl hr =>
      have ho := pick3_lawful _ _ _ _ ho
      have hl := hlhs _ _ _ hl
      have hr := hrhs _ _ _ hr
      exact ⟨.binOp ho.swap hl.swap hr.swap, .binOp ho.left hl.left hr.left,
        .binOp ho.right hl.right hr.right, fun heq => by
        injection heq with h₁ h₂ h₃
        simp [ho.base h₁, hl.base h₂, hr.base h₃]⟩
  unaryOp op expr hexpr := lawfulAt_of_composed fun o t e h => by
    cases h with
    | unaryOp ho he =>
      have ho := pick3_lawful _ _ _ _ ho
      have he := hexpr _ _ _ he
      exact ⟨.unaryOp ho.swap he.swap, .unaryOp ho.left he.left, .unaryOp ho.right he.right,
        fun heq => by
        injection heq with h₁ h₂
        simp [ho.base h₁, he.base h₂]⟩
  returnE value hvalue := lawfulAt_of_composed fun o t e h => by
    cases h with
    | returnE hv =>
      have hv := hvalue _ _ _ hv
      exact ⟨.returnE hv.swap, .returnE hv.left, .returnE hv.right, fun heq => by
        simp [hv.base (CExpr.returnE.inj heq)]⟩

/-- **The merge of expressions is lawful.** -/
theorem merge3_lawful (b o t : CExpr) : Lawful (Returns merge3) b o t := lawfulSteps.onExpr b o t

theorem mergeBodies_eq_merged {b o t e : CExpr} : mergeBodies b o t = .merged e ↔ merge3 b o t = some e := by
  unfold mergeBodies
  cases merge3 b o t <;> simp

/-- **The laws of the body merge**, for every base and every two edits of it: the sides can be swapped;
an unchanged side leaves the other; merging a result with either side again changes nothing; and the
base comes out only when neither side changed it. -/
theorem mergeBodies_laws (b o t : CExpr) : mergeBodies b o t = mergeBodies b t o ∧ mergeBodies b o b = .merged o ∧
    mergeBodies b b t = .merged t ∧ ∀ e, mergeBodies b o t = .merged e →
      mergeBodies b e t = .merged e ∧ mergeBodies b o e = .merged e ∧ (e = b → o = b ∧ t = b) := by
  refine ⟨?_, ?_, ?_, fun e he => ?_⟩
  · unfold mergeBodies
    rw [Lawful.comm (fun o t => merge3_lawful b o t) o t]
  · exact mergeBodies_eq_merged.mpr (quick_merge3.theirs b o)
  · exact mergeBodies_eq_merged.mpr (quick_merge3.ours b t)
  · have hs := merge3_lawful b o t e (mergeBodies_eq_merged.mp he)
    exact ⟨mergeBodies_eq_merged.mpr hs.left, mergeBodies_eq_merged.mpr hs.right, hs.base⟩

end LexLang.Vcs
