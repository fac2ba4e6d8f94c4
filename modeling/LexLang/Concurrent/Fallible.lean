/-
# LexLang.Concurrent.Fallible — programs that may fail, alone

`Ends p Q s`: whatever the environment answers, the program `p` started in `s` ends in a result and a
state that satisfy `Q`. An error ends a program, so the rule for sequencing asks `Q` of the error at
once. `OnlyReads` is the frame: the program leaves the state as it found it.
-/
import LexLang.Concurrent.Prog

namespace LexLang.Concurrent

variable {σ ε ω err err' ρ ρ' : Type}

/-- A program on one part of the state leaves the rest alone. -/
theorem Prog.wp_onPart {τ ε' α : Type} {part : τ → σ} {put : σ → τ → τ} {seen : ε → τ → ε'}
    (hget : ∀ s t, part (put s t) = s) (hput : ∀ s s' t, put s' (put s t) = put s' t)
    (hsame : ∀ t, put (part t) t = t) {p : Prog σ ε ω α} {Q : α → τ → Prop} {t : τ} :
    (p.onPart part put seen).wp Q t ↔ p.wp (fun result after => Q result (put after t)) (part t) := by
  induction p generalizing t with
  | ret result => rw [onPart, wp_ret, wp_ret, hsame]
  | atom act label next ih =>
    rw [onPart, wp_atom, wp_atom]
    refine forall_congr' fun answer => ?_
    rw [ih, hget]
    simp only [hput]

/-- What has to hold before a program runs alone, for `Q` to hold of how it ends. -/
def Ends (p : ExceptT err (Prog σ ε ω) ρ) (Q : Except err ρ → σ → Prop) (s : σ) : Prop := p.run.wp Q s

variable {f : ρ → ExceptT err (Prog σ ε ω) ρ'}

section Rules

variable {p : ExceptT err (Prog σ ε ω) ρ} {Q Q' : Except err ρ → σ → Prop} {s : σ}

theorem Ends.mono (h : Ends p Q s) (hQ : ∀ result after, Q result after → Q' result after) :
    Ends p Q' s := Prog.wp.mono h hQ

/-- **Sequencing**: an error ends the program. -/
theorem ends_bind {Q : Except err ρ' → σ → Prop} :
    Ends (p >>= f) Q s ↔
      Ends p
        (fun result after =>
          match result with
          | .ok a => Ends (f a) Q after
          | .error e => Q (.error e) after)
        s := by
  unfold Ends
  rw [ExceptT.run_bind, Prog.wp_bind]
  constructor
  all_goals
    intro h
    refine h.mono fun result after hresult => ?_
    cases result <;> exact hresult

theorem ends_map {g : Except err ρ → Except err' ρ'} {Q : Except err' ρ' → σ → Prop} :
    Ends (ExceptT.mk (p.run >>= fun result => .ret (g result)) : ExceptT err' (Prog σ ε ω) ρ') Q s ↔
      Ends p (fun result after => Q (g result) after) s := by
  unfold Ends
  rw [ExceptT.run_mk, Prog.wp_bind]
  rfl

end Rules

/-! ## Programs that only read -/

/-- **The frame**: the state is left as it was, however the program ends. -/
def OnlyReads (p : ExceptT err (Prog σ ε ω) ρ) : Prop := ∀ s, Ends p (fun _ after => after = s) s

theorem onlyReads_pure (a : ρ) : OnlyReads (pure a : ExceptT err (Prog σ ε ω) ρ) := fun _ => rfl

theorem OnlyReads.bind {p : ExceptT err (Prog σ ε ω) ρ}
    (hp : OnlyReads p) (hf : ∀ a, OnlyReads (f a)) : OnlyReads (p >>= f) := by
  intro s
  refine ends_bind.mpr ((hp s).mono fun result after hafter => ?_)
  cases result with
  | error e => exact hafter
  | ok a => exact hafter ▸ hf a after

theorem OnlyReads.map {p : ExceptT err (Prog σ ε ω) ρ} (hp : OnlyReads p) (g : Except err ρ → Except err' ρ') :
    OnlyReads (ExceptT.mk (p.run >>= fun result => .ret (g result)) :
      ExceptT err' (Prog σ ε ω) ρ') := fun s => ends_map.mpr (hp s)

/-- A check that ends the program, or goes on. -/
theorem onlyReads_guard {e : err} {c : Prop} [Decidable c] {next : Unit → ExceptT err (Prog σ ε ω) ρ}
    (hnext : OnlyReads (next ())) : OnlyReads (if c then throw e >>= next else next ()) := by
  split
  · exact fun _ => rfl
  · exact hnext

end LexLang.Concurrent
