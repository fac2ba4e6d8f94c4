/-
# LexLang.Transition.Observed — systems that are watched from outside

A system goes on by itself, asks for something and waits for the answer, or is done. What is watched
is what it asks for, in order, and how it ends. `Simulates` compares two systems, of which the
second may do in one turn what the first does in several.
-/
import Mathlib.Data.Option.Basic

namespace LexLang.Transition

variable {S T E A F : Type}

inductive Turn (S E F : Type)
  | next (s : S)
  | ask (e : E) (s : S)
  | done (f : F)

structure System (S E A F : Type) where
  turn : S → Turn S E F
  -- how the system goes on with an answer
  resume : S → A → S

/-- **A run of `n` turns**, with what was asked and answered. Its end is `none` where the system is watched no
longer. -/
inductive System.Runs (M : System S E A F) : Nat → S → List (E × A) → Option F → Prop
  | stop (s : S) : M.Runs 0 s [] none
  | next {n s s' es f} (hturn : M.turn s = .next s') (hrun : M.Runs n s' es f) : M.Runs (n + 1) s es f
  | ask {n s e s' a es f} (hturn : M.turn s = .ask e s') (hrun : M.Runs n (M.resume s' a) es f) :
      M.Runs (n + 1) s ((e, a) :: es) f
  | done {s f} (hturn : M.turn s = .done f) : M.Runs 1 s [] (some f)

/-- Turns that cannot be seen. -/
inductive System.Steps (M : System S E A F) : Nat → S → S → Prop
  | refl (s : S) : M.Steps 0 s s
  | head {n s s' s''} (hturn : M.turn s = .next s') (hsteps : M.Steps n s' s'') : M.Steps (n + 1) s s''

section Steps

variable {M : System S E A F} {n k : Nat} {s s' s'' : S} {es : List (E × A)} {f : Option F}

theorem System.Steps.one (h : M.turn s = .next s') : M.Steps 1 s s' := .head h (.refl s')

theorem System.Runs.of_steps (h : M.Steps k s s') (hrun : M.Runs n s' es f) : M.Runs (k + n) s es f := by
  induction h with
  | refl s =>
    rw [Nat.zero_add]
    exact hrun
  | head hturn hsteps ih =>
    rw [Nat.add_right_comm]
    exact .next hturn (ih hrun)

/-- A run goes the way of the turns that cannot be seen, unless it is cut short on the way. -/
theorem System.Runs.after_steps (h : M.Steps k s s') (hrun : M.Runs n s es f) :
    (∃ m, n = k + m ∧ M.Runs m s' es f) ∨ (es = [] ∧ f = none) := by
  induction h generalizing n with
  | refl s => exact .inl ⟨n, (Nat.zero_add n).symm, hrun⟩
  | head hturn hsteps ih =>
    cases hrun with
    | stop => exact .inr ⟨rfl, rfl⟩
    | next hturn' hrun =>
      obtain rfl := Turn.next.inj (hturn.symm.trans hturn')
      obtain ⟨m, hm, hrun⟩ | hcut := ih hrun
      · exact .inl ⟨m, by omega, hrun⟩
      · exact .inr hcut
    | ask hturn' => exact nomatch hturn.symm.trans hturn'
    | done hturn' => exact nomatch hturn.symm.trans hturn'

end Steps

/-! ## Simulation -/

/-- **`N` does what `M` does**, in as many turns or fewer. -/
structure Simulates (M : System S E A F) (N : System T E A F) (R : S → T → Prop) (Agree : F → F → Prop) :
    Prop where
  next : ∀ {s t t'}, R s t → N.turn t = .next t' → ∃ k s', M.Steps (k + 1) s s' ∧ R s' t'
  ask : ∀ {s t t' e}, R s t → N.turn t = .ask e t' →
    ∃ k s₀ s', M.Steps k s s₀ ∧ M.turn s₀ = .ask e s' ∧ ∀ a, R (M.resume s' a) (N.resume t' a)
  done : ∀ {s t g}, R s t → N.turn t = .done g →
    ∃ k s₀ f, M.Steps k s s₀ ∧ M.turn s₀ = .done f ∧ Agree f g

section Simulates

variable {M : System S E A F} {N : System T E A F} {R : S → T → Prop} {Agree : F → F → Prop} {n : Nat} {s : S}
  {t : T} {es : List (E × A)} {f g : Option F}

/-- What is seen of `N` can be seen of `M`. -/
theorem Simulates.backward (h : Simulates M N R Agree) (hst : R s t) (hrun : N.Runs n t es g) :
    ∃ m f, n ≤ m ∧ M.Runs m s es f ∧ Option.Rel Agree f g := by
  induction hrun generalizing s with
  | stop t => exact ⟨0, none, Nat.le_refl 0, .stop s, .none⟩
  | next hturn hrun ih =>
    obtain ⟨k, s', hsteps, hst'⟩ := h.next hst hturn
    obtain ⟨m, f, hle, hrun', hend⟩ := ih hst'
    exact ⟨k + 1 + m, f, by omega, .of_steps hsteps hrun', hend⟩
  | ask hturn hrun ih =>
    obtain ⟨k, s₀, s', hsteps, hask, hst'⟩ := h.ask hst hturn
    obtain ⟨m, f, hle, hrun', hend⟩ := ih (hst' _)
    exact ⟨k + (m + 1), f, by omega, .of_steps hsteps (.ask hask hrun'), hend⟩
  | done hturn =>
    obtain ⟨k, s₀, f, hsteps, hdone, hagree⟩ := h.done hst hturn
    exact ⟨k + 1, some f, by omega, .of_steps hsteps (.done hdone), .some hagree⟩

/-- What is seen of `M` can be seen of `N`. The induction is on the turns of `M`. -/
theorem Simulates.forward (h : Simulates M N R Agree) (hst : R s t) (hrun : M.Runs n s es f) :
    ∃ m g, m ≤ n ∧ N.Runs m t es g ∧ Option.Rel Agree f g := by
  induction n using Nat.strongRecOn generalizing s t es f with
  | ind n ih =>
    have hcut : es = [] ∧ f = none → ∃ m g, m ≤ n ∧ N.Runs m t es g ∧ Option.Rel Agree f g := by
      rintro ⟨rfl, rfl⟩
      exact ⟨0, none, Nat.zero_le n, .stop t, .none⟩
    cases hturn : N.turn t with
    | next t' =>
      obtain ⟨k, s', hsteps, hst'⟩ := h.next hst hturn
      obtain ⟨m, rfl, hrun'⟩ | hend := hrun.after_steps hsteps
      · obtain ⟨m', g, hle, hrun'', hrel⟩ := ih m (by omega) hst' hrun'
        exact ⟨m' + 1, g, by omega, .next hturn hrun'', hrel⟩
      · exact hcut hend
    | ask e t' =>
      obtain ⟨k, s₀, s', hsteps, hask, hst'⟩ := h.ask hst hturn
      obtain ⟨m, rfl, hrun'⟩ | hend := hrun.after_steps hsteps
      · cases hrun' with
        | stop => exact hcut ⟨rfl, rfl⟩
        | next hturn' => exact nomatch hask.symm.trans hturn'
        | done hturn' => exact nomatch hask.symm.trans hturn'
        | ask hturn' hrun' =>
          obtain ⟨rfl, rfl⟩ := Turn.ask.inj (hask.symm.trans hturn')
          obtain ⟨m', g, hle, hrun'', hrel⟩ := ih _ (by omega) (hst' _) hrun'
          exact ⟨m' + 1, g, by omega, .ask hturn hrun'', hrel⟩
      · exact hcut hend
    | done g =>
      obtain ⟨k, s₀, f', hsteps, hdone, hagree⟩ := h.done hst hturn
      obtain ⟨m, rfl, hrun'⟩ | hend := hrun.after_steps hsteps
      · cases hrun' with
        | stop => exact hcut ⟨rfl, rfl⟩
        | next hturn' => exact nomatch hdone.symm.trans hturn'
        | ask hturn' => exact nomatch hdone.symm.trans hturn'
        | done hturn' =>
          obtain rfl := Turn.done.inj (hdone.symm.trans hturn')
          exact ⟨1, some g, by omega, .done hturn, .some hagree⟩
      · exact hcut hend

end Simulates

end LexLang.Transition
