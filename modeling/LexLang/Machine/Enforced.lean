/-
# LexLang.Machine.Enforced — predicates of parameters

A parameter of a refined type carries a predicate. The machine evaluates those that the compiler stored with
the function, on every route into the function but `CallClosure`; the compiler stores the predicate that
stands in the type of a declared function's parameter, and no other.
-/
import LexLang.Machine.Calls

namespace LexLang.Machine

open LexLang.Ast
open List Option

/-! ## What a type asks of its values -/

/-- **The predicates of a type**: its own, those of the type that it refines, and those of the type that it is
another name for. -/
inductive Imposes (aliases : String → Option TypeExpr) : TypeExpr → Refinement → Prop
  | own (base : TypeExpr) (binding : String) (predicate : CExpr) :
      Imposes aliases (.refined base binding predicate) ⟨binding, predicate⟩
  | base {base : TypeExpr} {r : Refinement} (binding : String) (predicate : CExpr)
      (hbase : Imposes aliases base r) : Imposes aliases (.refined base binding predicate) r
  | named {name : String} {ty : TypeExpr} {r : Refinement} (halias : aliases name = some ty)
      (hty : Imposes aliases ty r) : Imposes aliases (.named name []) r

/-- What a function of the table was compiled from. -/
inductive Origin
  | declared (decl : FnDecl)
  -- the captured values come first
  | lambda (captures : Nat) (params : List (String × TypeExpr))
  -- a function of the compiler's own
  | trampoline

namespace Origin

def paramType : Origin → Nat → Option TypeExpr
  | declared decl, i => decl.params[i]?.map Prod.snd
  | lambda captures params, i => if i < captures then none else params[i - captures]?.map Prod.snd
  | trampoline, _ => none

/-- What the compiler stores. -/
def refinements : Origin → List (Option Refinement)
  | declared decl => declRefinements decl
  | lambda _ _ | trampoline => lambdaRefinements

/-- The arguments satisfy the predicates of the parameters' types. -/
def Admits (host : Host) (aliases : String → Option TypeExpr) (o : Origin) (args : List Value) : Prop :=
  ∀ (i : Nat) (ty : TypeExpr) (r : Refinement), o.paramType i = some ty → Imposes aliases ty r →
    r.Holds host (args.getD i .unit)

/-- Every predicate stands in the type of a declared function's parameter: none is a lambda's, and none is
behind another name, or another predicate. -/
def Direct (aliases : String → Option TypeExpr) (o : Origin) : Prop :=
  ∀ (i : Nat) (ty : TypeExpr) (r : Refinement), o.paramType i = some ty → Imposes aliases ty r →
    (∃ decl, o = declared decl) ∧ TypeExpr.refinement? ty = some r

end Origin

/-- The table of functions, as the compiler leaves it. -/
def Program.CompiledFrom (program : Program) (origins : List Origin) : Prop :=
  program.functions.map Function.refinements = origins.map Origin.refinements

/-- **The call that comes next is one whose predicates are enforced**: the function has no predicate that the
compiler does not store, and if it has any, the call is not made by `CallClosure`. -/
def Vm.CallsEnforced (program : Program) (aliases : String → Option TypeExpr) (origins : List Origin)
    (vm : Vm) : Prop :=
  ∀ (a : Attempt) (f : Function) (o : Origin), vm.attempt program = some a →
    program.functions[a.fnId]? = some f → origins[a.fnId]? = some o →
    o.Direct aliases ∧ (a.route = .callClosure → ∀ r ∈ f.refinements, r = none)

/-! ## The evaluation -/

variable {r : Refinement} {a : Attempt} {f : Function}

section Evaluation

variable {host : Host} {fnName : String} {arg : Nat → Option Value}

/-- Evaluation goes through all parameters. -/
theorem holds_of_checkRefinements {rs : List (Option Refinement)} {k j : Nat}
    (h : checkRefinements host fnName arg k rs = .ok ()) (hr : rs[j]? = some (some r)) :
    ∃ v, arg (k + j) = some v ∧ r.Holds host v := by
  induction rs generalizing k j with
  | nil => cases hr
  | cons first rest ih =>
    cases first with
    | none =>
      cases j with
      | zero => cases hr
      | succ j =>
        obtain ⟨v, hv, hholds⟩ := ih h hr
        exact ⟨v, by rw [← hv]; congr 1; omega, hholds⟩
    | some r' =>
      unfold checkRefinements at h
      cases harg : arg k with
      | none =>
        rw [harg] at h
        cases h
      | some v =>
        rw [harg] at h
        dsimp only [orPanic, bind, Except.bind] at h
        split at h
        · rename_i heval
          cases j with
          | zero =>
            obtain rfl : r' = r := by simpa using hr
            exact ⟨v, harg, heval⟩
          | succ j =>
            obtain ⟨w, hw, hholds⟩ := ih h hr
            exact ⟨w, by rw [← hw]; congr 1; omega, hholds⟩
        · cases h
        · cases h
        · cases h

theorem Attempt.Passes.holds (h : a.Passes host f) {i : Nat}
    (hr : f.refinements[i]? = some (some r)) : r.Holds host (a.args.getD i .unit) := by
  obtain ⟨v, hv, hholds⟩ := holds_of_checkRefinements h hr
  rw [Nat.zero_add] at hv
  suffices hv' : v = a.args.getD i .unit by rwa [← hv']
  unfold Attempt.arg at hv
  split at hv
  · rw [getD_eq_getElem?_getD, hv, getD_some]
  · exact (some.inj hv).symm

end Evaluation

/-! ## The run -/

/-- What is asked of every call that a run has made. -/
def Event.Admitted (host : Host) (aliases : String → Option TypeExpr) (origins : List Origin) : Event → Prop
  | .activated _ _ fnId args => ∀ o, origins[fnId]? = some o → o.Admits host aliases args
  | _ => True

section Run

variable {program : Program} {host : Host} {aliases : String → Option TypeExpr} {origins : List Origin}

theorem refinements_of_compiled (hcompiled : program.CompiledFrom origins) {fnId : Nat}
    {o : Origin} (hf : program.functions[fnId]? = some f) (ho : origins[fnId]? = some o) :
    f.refinements = o.refinements := by
  have h := congrArg (·[fnId]?) hcompiled
  simp only [List.getElem?_map, hf, ho, map_some] at h
  exact some.inj h

/-- A predicate that stands where the compiler looks is stored for its parameter. -/
theorem Origin.Direct.stored {o : Origin} (h : o.Direct aliases) {i : Nat} {ty : TypeExpr}
    (hty : o.paramType i = some ty) (hr : Imposes aliases ty r) : o.refinements[i]? = some (some r) := by
  obtain ⟨⟨decl, rfl⟩, hrefinement⟩ := h i ty r hty hr
  obtain ⟨param, hparam, rfl⟩ := map_eq_some_iff.mp hty
  show (decl.params.map _)[i]? = _
  rw [List.getElem?_map, hparam, map_some, hrefinement]

/-- A call whose predicates passed, or that has none, is admitted. -/
theorem admitted_of_passes (hcompiled : program.CompiledFrom origins) {vm : Vm}
    (hcalls : vm.CallsEnforced program aliases origins) (ha : vm.attempt program = some a)
    (hf : program.functions[a.fnId]? = some f) (hpasses : a.route = .callClosure ∨ a.Passes host f)
    (start : Start) : (Event.activated a.route start a.fnId a.args).Admitted host aliases origins := by
  intro o ho i ty r hty hr
  obtain ⟨hdirect, hclosures⟩ := hcalls a f o ha hf ho
  have hstored := hdirect.stored hty hr
  rw [← refinements_of_compiled hcompiled hf ho] at hstored
  rcases hpasses with hroute | hpasses
  · exact nomatch hclosures hroute _ (mem_of_getElem? hstored)
  · exact hpasses.holds hstored

theorem admitted_step (hcompiled : program.CompiledFrom origins) {input : Input} {budget : Budget} {vm : Vm}
    {outcome : Outcome} (hcalls : vm.CallsEnforced program aliases origins)
    (hstep : vm.step program host input budget = some outcome) :
    ∀ event ∈ outcome.events, event.Admitted host aliases origins := by
  obtain ⟨hevents, -⟩ | ⟨a, f, ha, hf, hreports⟩ := step_reports hstep
  · simp [hevents]
  · have hadmitted : (a.route = .callClosure ∨ a.Passes host f) → ∀ start,
        (Event.activated a.route start a.fnId a.args).Admitted host aliases origins :=
      admitted_of_passes hcompiled hcalls ha hf
    cases hreports with
    | refused message hroute hnote hevents hbudget => simp [hevents, Event.Admitted]
    | vain hroute hcost hnote hevents hdoomed => simp [hevents, Event.Admitted]
    | charged start hroute hcost hnote hevents hpasses =>
      rw [hevents]
      rintro event (- | ⟨-, - | ⟨-, ⟨⟩⟩⟩)
      · trivial
      · exact hadmitted hpasses start
    | free start hfree hbudget hevents hpasses =>
      rw [hevents]
      rintro event (- | ⟨-, ⟨⟩⟩)
      exact hadmitted hpasses start

/-- **A body that starts has arguments that satisfy the predicates of its parameters**: in every run, of any
number of threads, all of whose calls are of that kind. -/
theorem enforced_of_reachable {ceiling : Option Nat} {s : System} (hcompiled : program.CompiledFrom origins)
    (hs : Reachable program host ceiling (fun vm _ => vm.CallsEnforced program aliases origins) s) :
    ∀ event ∈ s.log, event.Admitted host aliases origins := by
  induction hs with
  | start => exact fun event hevent => absurd hevent not_mem_nil
  | step hs hstep ih =>
    cases hstep with
    | machine hthread hanswers hstep hp =>
      intro event hevent
      rcases mem_append.mp hevent with hevent | hevent
      · exact ih event hevent
      · exact admitted_step hcompiled hp hstep event hevent
    | drive hthread hdrives => exact ih
    | new stepLimit => exact ih

end Run

/-! ## A program -/

section Positive

/-- A host whose libraries are not asked. -/
def plainHost : Host where
  parseFloat _ := none
  hashCallArgs _ := some 0
  memoArgsExceed _ := true
  floatMod x _ := x
  dynamicShape _ := noShapeId
  debug _ := ""
  debugError _ := ""

/-- No hook, no effect and no other thread. -/
def plainInput : Input where
  hook := none
  overrideEffect := none
  dispatch := .ok .unit
  takeExit := none
  turn := none
  reply := none
  worker := none
  slot := 0
  parWorkers := 1
  answers := none

/-- `Int{x | x > 0}`. -/
def positiveType : TypeExpr := .refined (.named "Int" []) "x" (.binOp ">" (.var "x") (.literal (.int 0)))

def positive : Refinement := ⟨"x", .binOp ">" (.var "x") (.literal (.int 0))⟩

/-- `fn pos(x :: Int{x | x > 0}) -> Int { x }`. -/
def posDecl : FnDecl :=
  ⟨"pos", [], [("x", positiveType)], [], none, .named "Int" [], .var "x", [], []⟩

/-- `fn apply(f :: (Int) -> Int, x :: Int) -> Int { f(x) }`. -/
def applyDecl : FnDecl :=
  ⟨"apply", [], [("f", .function [.named "Int" []] [] none (.named "Int" [])), ("x", .named "Int" [])], [], none,
    .named "Int" [], .call (.var "f") [.var "x"], [], []⟩

/-- `fn main() -> Int { apply(pos, n) }`. -/
def mainDecl (n : Int) : FnDecl :=
  ⟨"main", [], [], [], none, .named "Int" [], .call (.var "apply") [.var "pos", .literal (.int n)], [], []⟩

/-- The function of a declaration without effects. -/
def pureFunction (decl : FnDecl) (code : List Op) : Function :=
  ⟨decl.name, decl.params.length, decl.params.length, code, [], 0, declRefinements decl, 0⟩

def applyProgram (n : Int) : Program where
  constants := [.int (.ofInt n)]
  functions :=
    [ pureFunction posDecl [.loadLocal 0, .return]
    , pureFunction applyDecl [.loadLocal 0, .loadLocal 1, .callClosure 1, .return]
    , pureFunction (mainDecl n) [.makeClosure 0 0, .pushConst 0, .tailCall 1 2] ]
  functionNames _ := none
  recordShapes := []

def applyOrigins (n : Int) : List Origin := [.declared posDecl, .declared applyDecl, .declared (mainDecl n)]

/-- One machine, on which the host calls a function. -/
def calledSystem (ceiling : Option Nat) (fnId : Nat) (args : List Value) : System :=
  ⟨.start ceiling, [⟨(Vm.new 100).goto (.invoke fnId args), .host, []⟩], []⟩

theorem reachable_calledSystem {program : Program} {host : Host} {P : Vm → Input → Prop}
    (ceiling : Option Nat) (fnId : Nat) (args : List Value) :
    Reachable program host ceiling P (calledSystem ceiling fnId args) := by
  have hnew : Reachable program host ceiling P ⟨.start ceiling, [⟨.new 100, .host, []⟩], []⟩ :=
    .step .start (.new 100)
  exact hnew.step (.drive (i := 0) rfl (.invoke fnId args rfl rfl))

/-- A program without `CallClosure`. -/
theorem route_ne_callClosure {program : Program}
    (h : ∀ f ∈ program.functions, ∀ op ∈ f.code, ∀ n, op ≠ .callClosure n) {vm : Vm}
    (ha : vm.attempt program = some a) : a.route ≠ .callClosure := by
  intro hroute
  unfold Vm.attempt at ha
  split at ha
  · rw [← some.inj ha] at hroute
    exact vm.invokeRoute_ne_callClosure hroute
  · rw [← some.inj ha] at hroute
    exact vm.invokeRoute_ne_callClosure hroute
  · split at ha
    · exact nomatch ha
    · obtain ⟨⟨frame, frames, op⟩, hfetch, ha⟩ := bind_eq_some_iff.mp ha
      unfold Vm.fetch at hfetch
      split at hfetch
      · exact nomatch hfetch
      · obtain ⟨g, hg, hfetch⟩ := bind_eq_some_iff.mp hfetch
        obtain ⟨op', hop, hfetch⟩ := bind_eq_some_iff.mp hfetch
        cases hfetch
        dsimp only [Vm.attemptOp] at ha
        split at ha
        · split at ha
          · exact nomatch ha
          · rw [← some.inj ha] at hroute
            exact nomatch hroute
        · split at ha
          · exact nomatch ha
          · rw [← some.inj ha] at hroute
            exact nomatch hroute
        · exact h g (mem_of_getElem? hg) _ (mem_of_getElem? hop) _ rfl
        · exact nomatch ha
  · exact nomatch ha

/-- `fn main() -> Int { pos(n) }`. -/
def directProgram (n : Int) : Program where
  constants := [.int (.ofInt n)]
  functions :=
    [pureFunction posDecl [.loadLocal 0, .return], pureFunction (mainDecl n) [.pushConst 0, .tailCall 0 1]]
  functionNames _ := none
  recordShapes := []

def directOrigins : List Origin := [.declared posDecl, .declared (mainDecl 1)]

/-- The one predicate is that of `pos`. -/
theorem directOrigins_direct : ∀ o ∈ directOrigins, o.Direct fun _ => none := by
  intro o ho i ty r hty hr
  rcases mem_pair.mp ho with rfl | rfl
  · refine ⟨⟨posDecl, rfl⟩, ?_⟩
    cases i with
    | zero =>
      obtain rfl : positiveType = ty := some.inj hty
      cases hr with
      | own => rfl
      | base binding predicate hbase =>
        cases hbase with
        | named halias => exact nomatch halias
    | succ i => exact nomatch hty
  · exact nomatch hty

theorem directProgram_callsEnforced (vm : Vm) :
    vm.CallsEnforced (directProgram 1) (fun _ => none) directOrigins := fun _ _ o ha _ ho =>
  ⟨directOrigins_direct o (mem_of_getElem? ho), fun hroute =>
    absurd hroute (route_ne_callClosure (by simp [directProgram, pureFunction]) ha)⟩

theorem enforced_of_reachable_direct : ∃ s, Reachable (directProgram 1) plainHost none
        (fun vm _ => vm.CallsEnforced (directProgram 1) (fun _ => none) directOrigins) s ∧
      Event.activated .tailCall .frame 0 [.int 1] ∈ s.log ∧
      ∀ event ∈ s.log, event.Admitted plainHost (fun _ => none) directOrigins := by
  have hlog : ((calledSystem none 1 []).turns (directProgram 1) plainHost (fun _ _ => true) plainInput 0 3).map System.log =
      some [.activated .entry .frame 1 [], .activated .tailCall .frame 0 [.int 1]] := rfl
  obtain ⟨s, hs, hlog⟩ := map_eq_some_iff.mp hlog
  have hreachable := (reachable_calledSystem none 1 []).turns (fun vm _ _ => directProgram_callsEnforced vm) hs
  have hcompiled : (directProgram 1).CompiledFrom directOrigins := rfl
  exact ⟨s, hreachable, by simp [hlog], enforced_of_reachable hcompiled hreachable⟩

/-- `pos` is entered with `0` through its closure: a predicate of a declared function's parameter, in the open,
and not satisfied. -/
theorem enforced_fails_callClosure : ¬ ∀ (program : Program) (host : Host) (aliases : String → Option TypeExpr)
    (origins : List Origin) (ceiling : Option Nat) (s : System), program.CompiledFrom origins →
    Reachable program host ceiling (fun _ _ => True) s → ∀ event ∈ s.log, event.Admitted host aliases origins := by
  intro h
  have hlog : ((calledSystem none 2 []).turns (applyProgram 0) plainHost (fun _ _ => true) plainInput 0 7).map System.log =
      some [.activated .entry .frame 2 [], .activated .tailCall .frame 1 [.closure 0 0 [], .int 0],
        .activated .callClosure .frame 0 [.int 0]] := rfl
  obtain ⟨s, hs, hlog⟩ := map_eq_some_iff.mp hlog
  have hadmitted := h (applyProgram 0) plainHost (fun _ => none) (applyOrigins 0) none s rfl
    ((reachable_calledSystem none 2 []).turns (fun _ _ _ => trivial) hs) (.activated .callClosure .frame 0 [.int 0]) (by simp [hlog])
  have hholds : positive.Holds plainHost (.int 0) := hadmitted _ rfl 0 positiveType positive rfl (.own _ _ _)
  have hfalse : evalRefinement plainHost positive (.int 0) = .ok false := rfl
  exact nomatch hfalse.symm.trans hholds

end Positive

end LexLang.Machine
