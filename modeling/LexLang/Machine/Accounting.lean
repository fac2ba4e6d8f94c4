/-
# LexLang.Machine.Accounting — what the calls of a run cost

A function may declare a budget, and a call of it costs as much. The three instructions that call charge the
call before anything else; `invoke` charges nothing, and a call that was charged may still be refused.

`balanced_of_reachable`: in a run in which neither happens to a function with a budget, what was charged is the
sum over the calls that were made, no more than the ceiling, and a call is refused only where it would have
gone over it.
-/
import LexLang.Machine.Enforced

namespace LexLang.Machine

open LexLang.Ast
open List Option

/-! ## The two sums -/

/-- What was charged. -/
def Event.charge : Event → Nat
  | .charged _ cost => cost
  | _ => 0

/-- What the signature of a called function declares. The host's own calls do not count. -/
def Event.cost (program : Program) : Event → Nat
  | .activated .entry _ _ _ => 0
  | .activated _ _ fnId _ => (program.functions[fnId]?).elim 0 Function.declaredBudget
  | _ => 0

def totalCharged (log : List Event) : Nat := (log.map Event.charge).sum

def totalCost (program : Program) (log : List Event) : Nat := (log.map (Event.cost program)).sum

/-- **The call that comes next is accounted for**, if its function has a budget: it is made by an instruction,
or by the host, its cost fits a `u64`, and once it is charged nothing keeps it from starting. -/
def Vm.CallsCharged (program : Program) (host : Host) (vm : Vm) (input : Input) : Prop :=
  ∀ (a : Attempt) (f : Function), vm.attempt program = some a → program.functions[a.fnId]? = some f →
    0 < f.declaredBudget → a.route ≠ .entry →
    a.route ≠ .native ∧ f.declaredBudget ≤ u64Max ∧ ¬ a.Doomed host input vm f

/-! ## The cost of a call -/

theorem foldl_saturating (effects : List Effect) (total : Nat) (htotal : total ≤ u64Max) :
    effects.foldl (fun total e => min (total + budgetOf e) u64Max) total =
      min (total + (effects.map budgetOf).sum) u64Max := by
  induction effects generalizing total with
  | nil => simp [htotal]
  | cons e effects ih =>
    rw [foldl_cons, ih _ (Nat.min_le_right _ _), map_cons, sum_cons]
    omega

theorem callBudgetCost_eq (f : Function) : callBudgetCost f = min f.declaredBudget u64Max := by
  have h := foldl_saturating f.effects 0 (Nat.zero_le _)
  rwa [Nat.zero_add] at h

theorem callBudgetCost_eq_zero {f : Function} (h : callBudgetCost f = 0) : f.declaredBudget = 0 := by
  rw [callBudgetCost_eq] at h
  have hmax : 0 < u64Max := by decide
  omega

theorem callBudgetCost_of_le {f : Function} (h : f.declaredBudget ≤ u64Max) :
    callBudgetCost f = f.declaredBudget := by
  rw [callBudgetCost_eq]
  omega

/-! ## The pool -/

section Pool

variable {budget budget' : Budget} {cost : Nat} {message : String}

theorem Budget.ceiling_noteCallBudget (h : budget.noteCallBudget cost = .ok budget') :
    budget'.ceiling = budget.ceiling := by
  unfold Budget.noteCallBudget at h
  split at h
  · rw [← Except.ok.inj h]
  · split at h
    · exact nomatch h
    · rw [← Except.ok.inj h]

theorem Budget.remaining_noteCallBudget {ceiling : Nat} (hceiling : budget.ceiling = some ceiling)
    (h : budget.noteCallBudget cost = .ok budget') : budget'.remaining + cost = budget.remaining := by
  unfold Budget.noteCallBudget at h
  rw [hceiling] at h
  dsimp only at h
  split at h
  · exact nomatch h
  · rename_i hcost
    rw [← Except.ok.inj h]
    show budget.remaining - cost + cost = budget.remaining
    omega

theorem Budget.lt_of_noteCallBudget (h : budget.noteCallBudget cost = .error message) :
    ∃ ceiling, budget.ceiling = some ceiling ∧ budget.remaining < cost := by
  unfold Budget.noteCallBudget at h
  split at h
  · exact nomatch h
  · rename_i ceiling hceiling
    split at h
    · rename_i hlt
      exact ⟨ceiling, hceiling, hlt⟩
    · exact nomatch h

end Pool

/-! ## The account of a run -/

/-- A refusal at some place of a log: with the call, the calls made before would have gone over the ceiling. -/
def RefusedRightly (program : Program) (ceiling : Option Nat) (before : List Event) (fnId : Nat) : Prop :=
  ∃ c f, ceiling = some c ∧ program.functions[fnId]? = some f ∧ c < totalCost program before + f.declaredBudget

/-- **The account is in balance.** -/
structure Balanced (program : Program) (ceiling : Option Nat) (s : System) : Prop where
  kept : s.budget.ceiling = ceiling
  charged : totalCharged s.log = totalCost program s.log
  within : ∀ c, ceiling = some c → totalCost program s.log + s.budget.remaining = c
  refusals : ∀ before fnId cost after, s.log = before ++ Event.refused fnId cost :: after →
    RefusedRightly program ceiling before fnId

section Account

variable {program : Program} {host : Host} {ceiling : Option Nat} {s : System}

theorem totalCharged_append (log events : List Event) :
    totalCharged (log ++ events) = totalCharged log + totalCharged events := by
  unfold totalCharged
  rw [map_append, sum_append]

theorem totalCost_append (log events : List Event) :
    totalCost program (log ++ events) = totalCost program log + totalCost program events := by
  unfold totalCost
  rw [map_append, sum_append]

theorem Balanced.start : Balanced program ceiling (.start ceiling) where
  kept := rfl
  charged := rfl
  within := by
    rintro c rfl
    show 0 + (some c).getD u64Max = c
    rw [getD_some, Nat.zero_add]
  refusals before fnId cost after h := absurd h.symm (by simp [System.start])

theorem refusals_append {log events : List Event} (hevents : ∀ fnId cost, Event.refused fnId cost ∉ events)
    (h : ∀ before fnId cost after, log = before ++ Event.refused fnId cost :: after →
      RefusedRightly program ceiling before fnId) :
    ∀ before fnId cost after, log ++ events = before ++ Event.refused fnId cost :: after →
      RefusedRightly program ceiling before fnId := by
  intro before fnId cost after heq
  rcases append_eq_append_iff.mp heq with ⟨rest, rfl, hrest⟩ | ⟨rest, rfl, hrest⟩
  · exact absurd (by simp [hrest]) (hevents fnId cost)
  · cases rest with
    | nil =>
      rw [nil_append] at hrest
      exact absurd (hrest ▸ mem_cons_self) (hevents fnId cost)
    | cons first rest =>
      rw [cons_append, List.cons.injEq] at hrest
      obtain ⟨rfl, -⟩ := hrest
      exact h before fnId cost rest rfl

/-! ### One step -/

variable {input : Input} {budget : Budget} {vm : Vm} {a : Attempt} {f : Function} {o : Outcome}

/-- What a call of the function is charged, and what it costs by its signature. -/
theorem cost_activated (hf : program.functions[a.fnId]? = some f) (hentry : a.route ≠ .entry) (start : Start) :
    (Event.activated a.route start a.fnId a.args).cost program = f.declaredBudget := by
  unfold Event.cost
  split
  · rename_i h
    exact absurd (Event.activated.inj h).1 hentry
  · rename_i h
    rw [← (Event.activated.inj h).2.2.1, hf]
    rfl
  · rename_i h
    exact absurd rfl (h _ _ _ _)

theorem cost_activated_entry (hentry : a.route = .entry) (start : Start) :
    (Event.activated a.route start a.fnId a.args).cost program = 0 := by
  rw [hentry]
  rfl

/-- Events that refuse nothing, and cost what is charged. -/
theorem Balanced.extend {t : System} {events : List Event} (h : Balanced program ceiling s)
    (hlog : t.log = s.log ++ events) (hkept : t.budget.ceiling = s.budget.ceiling)
    (hsum : totalCharged events = totalCost program events)
    (hpool : ∀ c, s.budget.ceiling = some c → totalCost program events + t.budget.remaining = s.budget.remaining)
    (hrefused : ∀ fnId cost, Event.refused fnId cost ∉ events) : Balanced program ceiling t where
  kept := hkept.trans h.kept
  charged := by rw [hlog, totalCharged_append, totalCost_append, h.charged, hsum]
  within c hc := by
    have hold := h.within c hc
    have hnew := hpool c (h.kept.trans hc)
    rw [hlog, totalCost_append]
    omega
  refusals := hlog ▸ refusals_append hrefused h.refusals

theorem eq_or_of_concat_eq {log before after : List Event} {x y : Event}
    (h : log ++ [x] = before ++ y :: after) : (log = before ∧ x = y) ∨ ∃ rest, log = before ++ y :: rest := by
  rcases eq_nil_or_concat after with rfl | ⟨rest, z, rfl⟩
  · obtain ⟨hlog, hlast⟩ := append_inj' h rfl
    exact .inl ⟨hlog, head_eq_of_cons_eq hlast⟩
  · rw [concat_eq_append, ← cons_append, ← append_assoc] at h
    exact .inr ⟨rest, (append_inj' h rfl).1⟩

/-- A refusal: with the call, the run would have gone over the ceiling. -/
theorem Balanced.refuse {t : System} {message : String} (h : Balanced program ceiling s)
    (hf : program.functions[a.fnId]? = some f) (hnote : s.budget.noteCallBudget (callBudgetCost f) = .error message)
    (hlog : t.log = s.log ++ [Event.refused a.fnId (callBudgetCost f)]) (hbudget : t.budget = s.budget) :
    Balanced program ceiling t where
  kept := hbudget ▸ h.kept
  charged := by
    rw [hlog, totalCharged_append, totalCost_append, h.charged]
    rfl
  within c hc := by
    rw [hlog, totalCost_append, hbudget]
    exact h.within c hc
  refusals := by
    intro before fnId cost after heq
    rw [hlog] at heq
    rcases eq_or_of_concat_eq heq with ⟨rfl, hlast⟩ | ⟨rest, hold⟩
    · -- the new one
      obtain ⟨c, hc, hlt⟩ := Budget.lt_of_noteCallBudget hnote
      have hwithin := h.within c (h.kept ▸ hc)
      have hle : callBudgetCost f ≤ f.declaredBudget := by
        rw [callBudgetCost_eq]
        omega
      refine ⟨c, f, h.kept ▸ hc, (Event.refused.inj hlast).1 ▸ hf, ?_⟩
      omega
    · exact h.refusals before fnId cost rest hold

/-- **One step keeps the account**, where it calls what is accounted for. -/
theorem Balanced.step {t : System} (h : Balanced program ceiling s)
    (hcalls : vm.CallsCharged program host input) (hstep : vm.step program host input s.budget = some o)
    (hbudget : t.budget = o.budget) (hlog : t.log = s.log ++ o.events) : Balanced program ceiling t := by
  obtain ⟨hevents, hsame⟩ | ⟨a, f, ha, hf, hreports⟩ := step_reports hstep
  · refine h.extend hlog (by rw [hbudget, hsame]) (by rw [hevents]; rfl) (fun c _ => ?_) (by simp [hevents])
    rw [hevents, hbudget, hsame]
    exact Nat.zero_add _
  · have hcounted := hcalls a f ha hf
    cases hreports with
    | refused message hroute hnote hevents hsame =>
      rw [hevents] at hlog
      exact h.refuse hf hnote hlog (hbudget.trans hsame)
    | vain hroute hcost hnote hevents hdoomed =>
      rw [callBudgetCost_eq] at hcost
      have hentry : a.route ≠ .entry := fun he => by simp [he, Route.charges] at hroute
      exact absurd hdoomed (hcounted (by omega) hentry).2.2
    | charged start hroute hcost hnote hevents hpasses =>
      have hentry : a.route ≠ .entry := fun he => by simp [he, Route.charges] at hroute
      have hpos : 0 < f.declaredBudget := by
        rw [callBudgetCost_eq] at hcost
        omega
      have hcost := callBudgetCost_of_le (hcounted hpos hentry).2.1
      have hsum : totalCost program o.events = callBudgetCost f := by
        rw [hevents]
        show 0 + ((Event.activated a.route start a.fnId a.args).cost program + 0) = _
        rw [cost_activated hf hentry, hcost]
        omega
      refine h.extend hlog (hbudget ▸ Budget.ceiling_noteCallBudget hnote) ?_ (fun c hc => ?_) (by simp [hevents])
      · rw [hsum, hevents]
        rfl
      · rw [hsum, hbudget, Nat.add_comm]
        exact Budget.remaining_noteCallBudget hc hnote
    | free start hfree hsame hevents hpasses =>
      have hzero : (Event.activated a.route start a.fnId a.args).cost program = 0 := by
        by_cases hentry : a.route = .entry
        · exact cost_activated_entry hentry start
        · rw [cost_activated hf hentry]
          by_contra hpos
          obtain ⟨hnative, -, -⟩ := hcounted (Nat.pos_of_ne_zero hpos) hentry
          rcases hfree with hfree | hcost
          · cases hroute : a.route <;> simp_all [Route.charges]
          · exact hpos (callBudgetCost_eq_zero hcost)
      have hsum : totalCost program o.events = 0 := by
        rw [hevents]
        show (Event.activated a.route start a.fnId a.args).cost program + 0 = 0
        rw [hzero]
      refine h.extend hlog (by rw [hbudget, hsame]) ?_ (fun c _ => ?_) (by simp [hevents])
      · rw [hsum, hevents]
        rfl
      · rw [hsum, hbudget, hsame, Nat.zero_add]

/-- **The account of a run**: what was charged is what the calls that were made declare, they stay within the
ceiling, and a call is refused only where it would have gone over it. The run may have any number of threads;
each of its steps calls only what is accounted for. -/
theorem balanced_of_reachable
    (hs : Reachable program host ceiling (fun vm input => vm.CallsCharged program host input) s) :
    Balanced program ceiling s := by
  induction hs with
  | start => exact .start
  | step hs hstep ih =>
    cases hstep with
    | machine hthread hanswers hstep hp => exact ih.step hp hstep rfl rfl
    | drive | new => exact ⟨ih.kept, ih.charged, ih.within, ih.refusals⟩

end Account

/-! ## A program -/

section Stepping

/-- `fn step() -> [budget(10)] Int { 1 }`, with or without a parameter. -/
def stepFunction (arity : Nat) : Function :=
  ⟨"step", arity, arity, [.pushConst 0, .return], [⟨"budget", some (.int 10)⟩], 0, List.replicate arity none, 0⟩

def mainFunction (code : List Op) : Function := ⟨"main", 0, 0, code, [], 0, [], 0⟩

/-- `fn main() -> Int { let _ := step() step() }`. -/
def twiceProgram : Program where
  constants := [.int 1]
  functions := [stepFunction 0, mainFunction [.call 0 0, .pop, .call 0 0, .return]]
  functionNames _ := none
  recordShapes := []

/-- Nothing can keep the call from starting. -/
def clear (program : Program) (vm : Vm) (input : Input) : Bool :=
  match vm.attempt program with
  | none => true
  | some a =>
    (match a.route with
      | .entry => true
      | .native => false
      | _ => input.hook.isNone) &&
    decide (vm.frames.length < maxCallDepth) &&
    (match program.functions[a.fnId]? with
      | none => true
      | some f =>
        f.refinements.isEmpty && decide (f.declaredBudget ≤ u64Max) && decide (a.args.length ≤ f.frameSize))

theorem callsCharged_of_clear {program : Program} {host : Host} {vm : Vm} {input : Input}
    (h : clear program vm input) : vm.CallsCharged program host input := by
  intro a f ha hf _ hentry
  unfold clear at h
  rw [ha] at h
  dsimp only at h
  rw [hf] at h
  simp only [Bool.and_eq_true, decide_eq_true_eq] at h
  obtain ⟨⟨hroute, hdepth⟩, ⟨hrefinements, hmax⟩, hsize⟩ := h
  have hpasses : a.Passes host f := by
    unfold Attempt.Passes
    rw [List.isEmpty_iff.mp hrefinements]
    rfl
  refine ⟨fun hnative => by simp [hnative] at hroute, hmax, ?_⟩
  rintro (⟨-, hfails⟩ | ⟨hclosure, answer, e, hhook, -⟩ | ⟨-, hfull⟩ | hlarge)
  · exact hfails hpasses
  · cases hr : a.route <;> simp_all
  · omega
  · omega

/-- With a ceiling of `15` the second call is refused. -/
theorem balanced_of_reachable_twice : ∃ s,
    Reachable twiceProgram plainHost (some 15) (fun vm input => vm.CallsCharged twiceProgram plainHost input) s ∧
      s.log = [.activated .entry .frame 1 [], .charged 0 10, .activated .call .frame 0 [], .refused 0 10] ∧
      Balanced twiceProgram (some 15) s := by
  have hlog : ((calledSystem (some 15) 1 []).turns twiceProgram plainHost (clear twiceProgram) plainInput 0 6).map
      System.log =
      some [.activated .entry .frame 1 [], .charged 0 10, .activated .call .frame 0 [], .refused 0 10] := rfl
  obtain ⟨s, hs, hlog⟩ := map_eq_some_iff.mp hlog
  have hreachable : Reachable twiceProgram plainHost (some 15)
      (fun vm input => vm.CallsCharged twiceProgram plainHost input) s :=
    (reachable_calledSystem (some 15) 1 []).turns (fun _ _ h => callsCharged_of_clear h) hs
  exact ⟨s, hreachable, hlog, balanced_of_reachable hreachable⟩

/-- `fn main() -> List[Int] { list.map([1], step) }`. -/
def mapProgram : Program where
  constants := [.int 1]
  functions := [stepFunction 1, mainFunction [.pushConst 0, .makeList 1, .makeClosure 0 0, .listMap, .return]]
  functionNames _ := none
  recordShapes := []

/-- A function with a budget is called by `list.map`, over a ceiling that it does not fit under: nothing is
charged, and nothing stops it. -/
theorem balanced_fails_listMap : ¬ ∀ (program : Program) (host : Host) (ceiling : Option Nat) (s : System),
    Reachable program host ceiling (fun _ _ => True) s → Balanced program ceiling s := by
  intro h
  have hsums : ((calledSystem (some 5) 1 []).turns mapProgram plainHost (fun _ _ => true) plainInput 0 6).map
      (fun s => (totalCharged s.log, totalCost mapProgram s.log)) = some (0, 10) := by decide +kernel
  obtain ⟨s, hs, hsums⟩ := map_eq_some_iff.mp hsums
  have hcharged := (h mapProgram plainHost (some 5) s
    ((reachable_calledSystem (some 5) 1 []).turns (fun _ _ _ => trivial) hs)).charged
  rw [(Prod.mk.inj hsums).1, (Prod.mk.inj hsums).2] at hcharged
  exact absurd hcharged (by decide)

end Stepping

end LexLang.Machine
