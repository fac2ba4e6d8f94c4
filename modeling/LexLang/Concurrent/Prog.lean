/-
# LexLang.Concurrent.Prog — programs of atomic steps, alone and interleaved

A program is a tree of atomic steps on a shared state. Each step takes the environment's answer (an
I/O that worked or failed, say), changes the state, may leave an event, and picks what comes next.
Between two steps of one program, steps of others can fall.

* `Prog.run` runs a program alone; `Prog.wp` is its weakest precondition over every answer
  (`run_of_wp`).
* `Config.exec` runs a pool of programs under a schedule. `Sat` is the rely/guarantee judgment on one
  program, and `Config.exec_sat` and `Config.exec_keeps` are its rules for the pool: what every
  program guarantees step by step holds of every interleaving.

A condition on the environment judges each event against the events before it (`AllMeet`).
-/
import Mathlib.Data.List.Infix

namespace LexLang.Concurrent

open Function

variable {ι σ ε ω α β : Type}

/-! ## Programs -/

/-- **A program over a shared state `σ`**: it is done, or takes one atomic step. The step gets the
environment's answer and the state it is taken in. -/
inductive Prog (σ ε ω α : Type)
  | ret (result : α)
  | atom (act : ω → σ → σ) (label : ω → σ → Option ε) (next : ω → σ → Prog σ ε ω α)

variable {p : Prog σ ε ω α}

variable {result : α} {f : α → Prog σ ε ω β}

namespace Prog

/-- Run the second program on the first one's result. -/
def bind : Prog σ ε ω α → (α → Prog σ ε ω β) → Prog σ ε ω β
  | .ret result, f => f result
  | .atom act label next, f => .atom act label fun answer s => (next answer s).bind f

instance : Monad (Prog σ ε ω) where
  pure := .ret
  bind := .bind

@[simp] theorem pure_eq (result : α) : (pure result : Prog σ ε ω α) = .ret result := rfl

@[simp] theorem ret_bind (result : α) (f : α → Prog σ ε ω β) : (.ret result >>= f) = f result := rfl

@[simp] theorem atom_bind (act : ω → σ → σ) (label : ω → σ → Option ε)
    (next : ω → σ → Prog σ ε ω α) (f : α → Prog σ ε ω β) :
    (.atom act label next >>= f) = .atom act label fun answer s => next answer s >>= f := rfl

theorem bind_ret (p : Prog σ ε ω α) : p.bind .ret = p := by
  induction p with
  | ret result => rfl
  | atom act label next ih =>
    simp only [bind]
    congr 1
    funext answer s
    exact ih answer s

theorem bind_bind {γ : Type} (p : Prog σ ε ω α) (f : α → Prog σ ε ω β) (g : β → Prog σ ε ω γ) :
    (p.bind f).bind g = p.bind fun result => (f result).bind g := by
  induction p with
  | ret result => rfl
  | atom act label next ih =>
    simp only [bind]
    congr 1
    funext answer s
    exact ih answer s

instance : LawfulMonad (Prog σ ε ω) := LawfulMonad.mk' _ bind_ret (fun _ _ => rfl) bind_bind

/-! ## One program alone -/

/-- Run a program by itself, on the environment's answers in order. -/
def run : Prog σ ε ω α → (Nat → ω) → σ → α × σ
  | .ret result, _, s => (result, s)
  | .atom act _ next, answers, s =>
    (next (answers 0) s).run (fun n => answers (n + 1)) (act (answers 0) s)

/-- What has to hold before a program runs alone, for `Q` to hold of its result and final state
whatever the environment answers. -/
def wp : Prog σ ε ω α → (α → σ → Prop) → σ → Prop
  | .ret result, Q, s => Q result s
  | .atom act _ next, Q, s => ∀ answer, (next answer s).wp Q (act answer s)

@[simp] theorem wp_ret (result : α) (Q : α → σ → Prop) (s : σ) :
    (ret result : Prog σ ε ω α).wp Q s ↔ Q result s := Iff.rfl

@[simp] theorem wp_atom (act : ω → σ → σ) (label : ω → σ → Option ε)
    (next : ω → σ → Prog σ ε ω α) (Q : α → σ → Prop) (s : σ) :
    (atom act label next).wp Q s ↔ ∀ answer, (next answer s).wp Q (act answer s) := Iff.rfl

/-- **Sequencing.** -/
theorem wp_bind (p : Prog σ ε ω α) (f : α → Prog σ ε ω β) (Q : β → σ → Prop) (s : σ) :
    (p >>= f).wp Q s ↔ p.wp (fun result s' => (f result).wp Q s') s := by
  induction p generalizing s with
  | ret result => rfl
  | atom act label next ih =>
    simp only [atom_bind, wp_atom]
    exact forall_congr' fun answer => ih answer s _

/-- **Consequence.** -/
theorem wp.mono {Q Q' : α → σ → Prop} {s : σ} (h : p.wp Q s)
    (hQ : ∀ result s', Q result s' → Q' result s') : p.wp Q' s := by
  induction p generalizing s with
  | ret result => exact hQ result s h
  | atom act label next ih =>
    intro answer
    exact ih answer s (h answer)

/-- **The weakest precondition is sound** for every sequence of answers. -/
theorem run_of_wp {Q : α → σ → Prop} {s : σ} (h : p.wp Q s)
    (answers : Nat → ω) : Q (p.run answers s).1 (p.run answers s).2 := by
  induction p generalizing s answers with
  | ret result => exact h
  | atom act label next ih => exact ih (answers 0) s (h (answers 0)) _

/-- On answers that are all alike the second program goes on where the first one ends. -/
theorem run_bind_const (p : Prog σ ε ω α) (f : α → Prog σ ε ω β) (answer : ω) (s : σ) :
    (p >>= f).run (fun _ => answer) s =
      (f (p.run (fun _ => answer) s).1).run (fun _ => answer) (p.run (fun _ => answer) s).2 := by
  induction p generalizing s with
  | ret result => rfl
  | atom act label next ih => exact ih answer s (act answer s)

/-- **Some answers lead to `Q`.** -/
def May : Prog σ ε ω α → (α → σ → Prop) → σ → Prop
  | .ret result, Q, s => Q result s
  | .atom act _ next, Q, s => ∃ answer, (next answer s).May Q (act answer s)

theorem may_iff [Inhabited ω] {Q : α → σ → Prop} {s : σ} :
    p.May Q s ↔ ∃ answers, Q (p.run answers s).1 (p.run answers s).2 := by
  induction p generalizing s with
  | ret result => exact ⟨fun h => ⟨fun _ => default, h⟩, fun ⟨_, h⟩ => h⟩
  | atom act label next ih =>
    constructor
    · rintro ⟨answer, h⟩
      obtain ⟨answers, h⟩ := (ih answer s).mp h
      refine ⟨fun n => match n with
        | 0 => answer
        | n + 1 => answers n, ?_⟩
      exact h
    · rintro ⟨answers, h⟩
      exact ⟨answers 0, (ih (answers 0) s).mpr ⟨_, h⟩⟩

theorem may_bind (p : Prog σ ε ω α) (f : α → Prog σ ε ω β) (Q : β → σ → Prop) (s : σ) :
    (p >>= f).May Q s ↔ p.May (fun result s' => (f result).May Q s') s := by
  induction p generalizing s with
  | ret result => rfl
  | atom act label next ih =>
    simp only [atom_bind, May]
    exact exists_congr fun answer => ih answer s _

/-- A program on one part of a larger state. -/
def onPart {τ ε' : Type} (part : τ → σ) (put : σ → τ → τ) (seen : ε → τ → ε') :
    Prog σ ε ω α → Prog τ ε' ω α
  | .ret result => .ret result
  | .atom act label next =>
    .atom (fun answer t => put (act answer (part t)) t)
      (fun answer t => (label answer (part t)).map fun event => seen event t)
      fun answer t => (next answer (part t)).onPart part put seen

/-- Every event a program can leave satisfies `P`. -/
def Emits (P : ε → Prop) : Prog σ ε ω α → Prop
  | .ret _ => True
  | .atom _ label next => (∀ answer s event, label answer s = some event → P event) ∧
      ∀ answer s, (next answer s).Emits P

theorem Emits.bind {P : ε → Prop} (hp : p.Emits P) (hf : ∀ result, (f result).Emits P) : (p >>= f).Emits P := by
  induction p with
  | ret result => exact hf result
  | atom act label next ih => exact ⟨hp.1, fun answer s => ih answer s (hp.2 answer s)⟩

/-- What a program has returned, if it is done. -/
def returned : Prog σ ε ω α → Option α
  | .ret result => some result
  | .atom _ _ _ => none

theorem eq_ret_of_returned (h : p.returned = some result) : p = .ret result := by
  cases p with
  | ret r => rw [Option.some.inj h]
  | atom act label next => cases h

end Prog

/-! ## Pools of programs -/

/-- The shared state, and the events so far with the program each came from, newest first. -/
structure World (ι σ ε : Type) where
  state : σ
  trace : List (ι × ε)

/-- One atomic step of the program `i`. -/
def World.step (w : World ι σ ε) (i : ι) (act : ω → σ → σ) (label : ω → σ → Option ε)
    (answer : ω) : World ι σ ε where
  state := act answer w.state
  trace := (label answer w.state).toList.map (Prod.mk i) ++ w.trace

/-- A world, and what each program has left to do. -/
structure Config (ι σ ε ω α : Type) where
  world : World ι σ ε
  pool : ι → Prog σ ε ω α

variable {c : Config ι σ ε ω α}

variable {i : ι}

namespace Config

variable [DecidableEq ι]

/-- The program `i` takes its next step, if it has one. -/
def step (c : Config ι σ ε ω α) (i : ι) (answer : ω) : Config ι σ ε ω α :=
  match c.pool i with
  | .ret _ => c
  | .atom act label next =>
    { world := c.world.step i act label answer
      pool := Function.update c.pool i (next answer c.world.state) }

/-- **Run the pool under a schedule**: which program moves next, and what the environment answers. -/
def exec (c : Config ι σ ε ω α) : List (ι × ω) → Config ι σ ε ω α
  | [] => c
  | (i, answer) :: schedule => (c.step i answer).exec schedule

theorem exec_append (c : Config ι σ ε ω α) (first second : List (ι × ω)) :
    c.exec (first ++ second) = (c.exec first).exec second := by
  induction first generalizing c with
  | nil => rfl
  | cons entry first ih => exact ih _

theorem exec_ret (h : c.pool i = .ret result) (schedule : List (ι × ω)) : (c.exec schedule).pool i = .ret result := by
  induction schedule generalizing c with
  | nil => exact h
  | cons entry schedule ih =>
    refine ih ?_
    unfold step
    split
    · exact h
    · rename_i act label next hpool
      have hne : i ≠ entry.1 := by
        rintro rfl
        rw [h] at hpool
        cases hpool
      show Function.update c.pool entry.1 _ i = _
      rw [update_of_ne hne]
      exact h

theorem trace_suffix_step (c : Config ι σ ε ω α) (i : ι) (answer : ω) :
    c.world.trace <:+ (c.step i answer).world.trace := by
  unfold step
  split
  · exact List.suffix_rfl
  · exact List.suffix_append _ _

theorem trace_suffix_exec (c : Config ι σ ε ω α) (schedule : List (ι × ω)) :
    c.world.trace <:+ (c.exec schedule).world.trace := by
  induction schedule generalizing c with
  | nil => exact List.suffix_rfl
  | cons entry schedule ih => exact (trace_suffix_step c _ _).trans (ih _)

end Config

/-! ## Conditions on events -/

/-- Every event meets a condition, judged against the events before it. -/
def AllMeet (meets : List (ι × ε) → ι → ε → Prop) : List (ι × ε) → Prop
  | [] => True
  | (i, event) :: older => meets older i event ∧ AllMeet meets older

instance AllMeet.decidable (meets : List (ι × ε) → ι → ε → Prop)
    [∀ older i event, Decidable (meets older i event)] :
    ∀ trace, Decidable (AllMeet meets trace)
  | [] => .isTrue trivial
  | (_, _) :: older => @instDecidableAnd _ _ _ (AllMeet.decidable meets older)

variable {meets : List (ι × ε) → ι → ε → Prop}

variable {older trace : List (ι × ε)}

theorem AllMeet.of_suffix (h : AllMeet meets trace) (hsuffix : older <:+ trace) : AllMeet meets older := by
  obtain ⟨newer, rfl⟩ := hsuffix
  induction newer with
  | nil => exact h
  | cons entry newer ih => exact ih h.2

theorem AllMeet.mono {meets' : List (ι × ε) → ι → ε → Prop}
    (h : ∀ older i event, meets older i event → meets' older i event)
    (hmeet : AllMeet meets trace) : AllMeet meets' trace := by
  induction trace with
  | nil => trivial
  | cons entry older ih => exact ⟨h _ _ _ hmeet.1, ih hmeet.2⟩

/-- The event of one step met the condition when it was left. -/
theorem AllMeet.of_step {label : Option ε} (h : AllMeet meets (label.toList.map (Prod.mk i) ++ older)) {event : ε}
    (hlabel : label = some event) : meets older i event := by
  subst hlabel
  exact h.1

/-! ## Rely and guarantee -/

/-- **What the programs of a pool owe each other**: an invariant of the world, a condition the events
are assumed to meet, what each program guarantees of its steps, and what it relies on between them.
Whatever others guarantee, a program can rely on. -/
structure Spec (ι σ ε : Type) where
  inv : World ι σ ε → Prop
  meets : List (ι × ε) → ι → ε → Prop
  guar : ι → World ι σ ε → World ι σ ε → Prop
  rely : ι → World ι σ ε → World ι σ ε → Prop
  rely_refl : ∀ i w, rely i w w
  rely_trans : ∀ i w w' w'', rely i w w' → rely i w' w'' → rely i w w''
  rely_of_guar : ∀ i j w w', i ≠ j → guar j w w' → rely i w w'

variable {S : Spec ι σ ε}

/-- **The program `i` keeps its part from the world `w` on**: after any interference it relies on,
its next step keeps the invariant and the guarantee, and so on to a result that satisfies `Q`. -/
def Sat (S : Spec ι σ ε) (i : ι) (Q : α → World ι σ ε → Prop) :
    Prog σ ε ω α → World ι σ ε → Prop
  | .ret result, w => Q result w
  | .atom act label next, w =>
    ∀ w', S.rely i w w' → S.inv w' → ∀ answer,
      (∀ event, label answer w'.state = some event → S.meets w'.trace i event) →
        S.inv (w'.step i act label answer) ∧ S.guar i w' (w'.step i act label answer) ∧
          Sat S i Q (next answer w'.state) (w'.step i act label answer)

variable {w : World ι σ ε}

variable {P : α → World ι σ ε → Prop}

/-- **Sequencing.** -/
theorem Sat.bind {Q : β → World ι σ ε → Prop}
    (hp : Sat S i P p w) (hf : ∀ result w', P result w' → Sat S i Q (f result) w') : Sat S i Q (p >>= f) w := by
  induction p generalizing w with
  | ret result => exact hf result w hp
  | atom act label next ih =>
    intro w' hrely hinv answer hmeets
    obtain ⟨hinv', hguar, hnext⟩ := hp w' hrely hinv answer hmeets
    exact ⟨hinv', hguar, ih answer w'.state hnext⟩

/-- **Consequence.** -/
theorem Sat.mono {Q : α → World ι σ ε → Prop}
    (hp : Sat S i P p w) (hQ : ∀ result w', P result w' → Q result w') : Sat S i Q p w := by
  induction p generalizing w with
  | ret result => exact hQ result w hp
  | atom act label next ih =>
    intro w' hrely hinv answer hmeets
    obtain ⟨hinv', hguar, hnext⟩ := hp w' hrely hinv answer hmeets
    exact ⟨hinv', hguar, ih answer w'.state hnext⟩

/-- Every program of the pool keeps its part, from the world it last saw on. -/
def Config.Sound (S : Spec ι σ ε) (Q : ι → α → World ι σ ε → Prop) (c : Config ι σ ε ω α) : Prop :=
  S.inv c.world ∧ ∀ i, ∃ w, S.rely i w c.world ∧ Sat S i (Q i) (c.pool i) w

namespace Config

variable [DecidableEq ι] {Q : ι → α → World ι σ ε → Prop}

/-- **One step** of a sound pool: it stays sound, and the step is one its program guarantees. -/
theorem Sound.step (h : c.Sound S Q) (i : ι) (answer : ω) (hmeet : AllMeet S.meets (c.step i answer).world.trace) :
    (c.step i answer).Sound S Q ∧ (c.step i answer = c ∨ S.guar i c.world (c.step i answer).world ∧
        ∃ label : Option ε, (c.step i answer).world.trace = label.toList.map (Prod.mk i) ++ c.world.trace) := by
  unfold Config.step at hmeet ⊢
  obtain ⟨hinv, hthreads⟩ := h
  obtain ⟨w, hrely, hsat⟩ := hthreads i
  cases hpool : c.pool i with
  | ret result => exact ⟨⟨hinv, hthreads⟩, .inl rfl⟩
  | atom act label next =>
    rw [hpool] at hsat hmeet
    obtain ⟨hinv', hguar, hnext⟩ :=
      hsat c.world hrely hinv answer fun event hevent => hmeet.of_step hevent
    refine ⟨⟨hinv', ?_⟩, .inr ⟨hguar, _, rfl⟩⟩
    intro j
    show ∃ w, _ ∧ Sat S j (Q j) (Function.update c.pool i (next answer c.world.state) j) w
    by_cases hj : j = i
    · subst hj
      rw [update_self]
      exact ⟨_, S.rely_refl _ _, hnext⟩
    · rw [update_of_ne hj]
      obtain ⟨wj, hrelyj, hsatj⟩ := hthreads j
      exact ⟨wj, S.rely_trans _ _ _ _ hrelyj (S.rely_of_guar _ _ _ _ hj hguar), hsatj⟩

/-- **Any interleaving** of a sound pool whose events meet the condition leaves a sound pool. -/
theorem Sound.exec (h : c.Sound S Q) (schedule : List (ι × ω))
    (hmeet : AllMeet S.meets (c.exec schedule).world.trace) : (c.exec schedule).Sound S Q := by
  induction schedule generalizing c with
  | nil => exact h
  | cons entry schedule ih =>
    exact ih (h.step _ _ (hmeet.of_suffix (trace_suffix_exec _ _))).1 hmeet

/-- **The invariant rule**: what every guaranteed step keeps, on runs whose events meet `cond` as
well, every interleaving keeps. -/
theorem Sound.keeps (h : c.Sound S Q) {cond : List (ι × ε) → ι → ε → Prop} {J : World ι σ ε → Prop}
    (hstep : ∀ i w w' (label : Option ε), S.inv w → S.inv w' → S.guar i w w' →
      w'.trace = label.toList.map (Prod.mk i) ++ w.trace → AllMeet cond w'.trace → J w → J w')
    (hJ : J c.world) (schedule : List (ι × ω)) (hmeet : AllMeet S.meets (c.exec schedule).world.trace)
    (hcond : AllMeet cond (c.exec schedule).world.trace) : J (c.exec schedule).world := by
  induction schedule generalizing c with
  | nil => exact hJ
  | cons entry schedule ih =>
    have hsuffix := trace_suffix_exec (c.step entry.1 entry.2) schedule
    obtain ⟨hsound, hmove⟩ := h.step entry.1 entry.2 (hmeet.of_suffix hsuffix)
    refine ih hsound ?_ hmeet hcond
    rcases hmove with hsame | ⟨hguar, label, htrace⟩
    · rw [hsame]
      exact hJ
    · exact hstep _ _ _ label h.1 hsound.1 hguar htrace (hcond.of_suffix hsuffix) hJ

end Config

end LexLang.Concurrent
