/-
# LexLang.Types.Effect — effects in types

`EffectKind` and `EffectSet` (`lex-types/src/types.rs`). A set may be open: it has a row variable then, which
stands for further effects.
-/
import LexLang.Ast.Canonical
import Mathlib.Data.Finset.Basic

namespace LexLang.Types

open LexLang.Ast (EffectArg)

/-- `[name]` without an argument is the wildcard form. -/
abbrev EffectKind := Ast.Effect

namespace EffectKind

def bare (name : String) : EffectKind := ⟨name, none⟩

def withStr (name arg : String) : EffectKind := ⟨name, some (.str arg)⟩

/-- At least as permissive as the other. -/
def subsumes (self other : EffectKind) : Bool :=
  if self.name ≠ other.name then false
  else
    match self.arg, other.arg with
    | none, _ => true
    | some _, none => false
    | some a, some b => a = b

def pretty (e : EffectKind) : String :=
  match e.arg with
  | none => e.name
  | some (.str s) => e.name ++ "(\"" ++ s ++ "\")"
  | some (.int n) => e.name ++ "(" ++ toString n ++ ")"
  | some (.ident s) => e.name ++ "(" ++ s ++ ")"

end EffectKind

structure EffectSet where
  concrete : Finset EffectKind
  var : Option Nat
  deriving DecidableEq

namespace EffectSet

def empty : EffectSet := ⟨∅, none⟩

end EffectSet

end LexLang.Types
