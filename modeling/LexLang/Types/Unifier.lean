/-
# LexLang.Types.Unifier — solving for type and row variables

`Unifier` of `lex-types/src/unifier.rs`: the two substitutions, the reading of a type and of a row through them, and
the unification of two types and of two rows. What recurses takes fuel; `none` is fuel that ran out. A call that
fails keeps what it bound before it failed.
-/
import LexLang.Types.Ty

namespace LexLang.Types

inductive UnifyError
  | mismatch (a b : Ty)
  | infinite (var : Nat) (ty : Ty)
  | effectMismatch (a b : EffectSet)

/-- The last field is not in the source. It counts the times that two open rows were unified although the left one
had effects that the right one lacked: the case that the source leaves for later. -/
structure Unifier where
  nextVar : Nat
  subst : Nat → Option Ty
  effSubst : Nat → Option EffectSet
  nextEffVar : Nat
  deferred : Nat

/-- The result of a call and the unifier that it leaves. -/
abbrev Outcome := Option (Except UnifyError Unit × Unifier)

/-- The `?` of the source. -/
def Outcome.andThen (first : Outcome) (next : Unifier → Outcome) : Outcome :=
  match first with
  | none => none
  | some (.error e, u) => some (.error e, u)
  | some (.ok (), u) => next u

namespace Unifier

def new : Unifier := ⟨0, fun _ => none, fun _ => none, 0, 0⟩

def accept (u : Unifier) : Outcome := some (.ok (), u)

def refuse (u : Unifier) (e : UnifyError) : Outcome := some (.error e, u)

def fresh (u : Unifier) : Ty × Unifier := (.var u.nextVar, { u with nextVar := u.nextVar + 1 })

def freshId (u : Unifier) : Nat × Unifier := (u.nextVar, { u with nextVar := u.nextVar + 1 })

def freshEffId (u : Unifier) : Nat × Unifier := (u.nextEffVar, { u with nextEffVar := u.nextEffVar + 1 })

/-! ## Reading through the substitutions -/

/-- The loop of `resolve_effects`: the effects so far and the variable to follow. -/
def followRow (u : Unifier) : Nat → Finset EffectKind → Option Nat → Option EffectSet
  | _, concrete, none => some ⟨concrete, none⟩
  | 0, _, some _ => none
  | fuel + 1, concrete, some v =>
    match u.effSubst v with
    | some bound => u.followRow fuel (concrete ∪ bound.concrete) bound.var
    | none => some ⟨concrete, some v⟩

def resolveEffects (u : Unifier) (fuel : Nat) (eff : EffectSet) : Option EffectSet :=
  u.followRow fuel eff.concrete eff.var

def resolve (u : Unifier) : Nat → Ty → Option Ty
  | 0, _ => none
  | fuel + 1, t =>
    t.traverse
      (fun v =>
        match u.subst v with
        | some t2 => u.resolve fuel t2
        | none => some (.var v))
      (u.resolveEffects fuel)

/-- Whether one of the types passes the test; the first that does ends the search. -/
def anyOf (test : Ty → Option Bool) : List Ty → Option Bool
  | [] => some false
  | t :: rest => do
    if ← test t then some true else anyOf test rest

def occurs (u : Unifier) : Nat → Nat → Ty → Option Bool
  | 0, _, _ => none
  | fuel + 1, v, t => do
    match ← u.resolve fuel t with
    | .var w => some (v = w)
    | .prim _ | .unit | .never => some false
    | .list inner => u.occurs fuel v inner
    | .tuple items => anyOf (u.occurs fuel v) items
    | .record fields => anyOf (u.occurs fuel v) (fields.map Prod.snd)
    | .con _ args => anyOf (u.occurs fuel v) args
    | .function params _ ret => do
      if ← anyOf (u.occurs fuel v) params then some true else u.occurs fuel v ret

/-! ## Unification -/

def bindTy (u : Unifier) (v : Nat) (t : Ty) : Unifier :=
  { u with subst := Function.update u.subst v (some t) }

def bindRow (u : Unifier) (v : Nat) (bound : EffectSet) : Unifier :=
  { u with effSubst := Function.update u.effSubst v (some bound) }

def unifyEffects (fuel : Nat) (u : Unifier) (a b : EffectSet) : Outcome := do
  let a ← u.resolveEffects fuel a
  let b ← u.resolveEffects fuel b
  match a.var, b.var with
  | none, none => if a.concrete = b.concrete then u.accept else u.refuse (.effectMismatch a b)
  | some va, none =>
    if a.concrete ⊆ b.concrete then accept (u.bindRow va ⟨b.concrete \ a.concrete, none⟩)
    else u.refuse (.effectMismatch a b)
  | some va, some vb =>
    if va = vb then
      if a.concrete = b.concrete then u.accept else u.refuse (.effectMismatch a b)
    else if a.concrete ⊆ b.concrete then accept (u.bindRow va ⟨b.concrete \ a.concrete, some vb⟩)
    else
      -- the right row is open, so the binding is made all the same
      accept { u.bindRow va ⟨b.concrete \ a.concrete, some vb⟩ with deferred := u.deferred + 1 }
  | none, some vb =>
    if b.concrete ⊆ a.concrete then accept (u.bindRow vb ⟨a.concrete \ b.concrete, none⟩)
    else u.refuse (.effectMismatch a b)

/-- The variable is unbound and the type is another one. -/
def bindVar (fuel : Nat) (u : Unifier) (v : Nat) (other : Ty) : Outcome := do
  if ← u.occurs fuel v other then u.refuse (.infinite v other)
  else accept (u.bindTy v other)

/-- The loop over two lists side by side. -/
def unifyEach (step : Unifier → Ty → Ty → Outcome) (u : Unifier) : List Ty → List Ty → Outcome
  | x :: xs, y :: ys => (step u x y).andThen fun u => unifyEach step u xs ys
  | _, _ => u.accept

/-- The loop over the fields of the left record; `missing` is the error of a field that the right one lacks. -/
def unifyFields (step : Unifier → Ty → Ty → Outcome) (missing : UnifyError) (other : List (String × Ty))
    (u : Unifier) : List (String × Ty) → Outcome
  | [] => u.accept
  | (k, va) :: rest =>
    match other.lookup k with
    | some vb => (step u va vb).andThen fun u => unifyFields step missing other u rest
    | none => u.refuse missing

/-- The match of `unify` on the two types as they are read; `step` is the call for two parts. -/
def unifyHeads (step : Unifier → Ty → Ty → Outcome) (fuel : Nat) (u : Unifier) (a b : Ty) : Outcome :=
  match a, b with
  | .var v, .var w => if v = w then u.accept else bindVar fuel u v (.var w)
  | .var v, other => bindVar fuel u v other
  | other, .var v => bindVar fuel u v other
  | .prim p, .prim q => if p = q then u.accept else u.refuse (.mismatch a b)
  | .unit, .unit => u.accept
  | .never, _ => u.accept
  | _, .never => u.accept
  | .list t, .list t' => step u t t'
  | .tuple xs, .tuple ys => if xs.length = ys.length then unifyEach step u xs ys else u.refuse (.mismatch a b)
  | .record fs, .record gs =>
    if fs.length = gs.length then unifyFields step (.mismatch a b) gs u fs else u.refuse (.mismatch a b)
  | .con n xs, .con m ys =>
    if n = m ∧ xs.length = ys.length then unifyEach step u xs ys else u.refuse (.mismatch a b)
  | .function ps e r, .function qs f s =>
    if ps.length = qs.length then
      (unifyEach step u ps qs).andThen fun u => (unifyEffects fuel u e f).andThen fun u => step u r s
    else u.refuse (.mismatch a b)
  | _, _ => u.refuse (.mismatch a b)

def unify : Nat → Unifier → Ty → Ty → Outcome
  | 0, _, _, _ => none
  | fuel + 1, u, a, b => do
    let a ← u.resolve fuel a
    let b ← u.resolve fuel b
    unifyHeads (unify fuel) fuel u a b

end Unifier

end LexLang.Types
