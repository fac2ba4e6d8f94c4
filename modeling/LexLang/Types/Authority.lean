/-
# LexLang.Types.Authority — what a change does to the authority of a program

`lex-types/src/authority.rs` and what it uses of `trust.rs`: the least grant that a set of effects needs, with the
scopes that the effects name, and the comparison of two of them. The effects come in the order of their set. A
sorted list of texts is the set of its elements here.
-/
import LexLang.Types.Effect

namespace LexLang.Types

open LexLang.Ast (EffectArg)

/-! ## Levels -/

inductive Dimension
  | filesystem
  | network
  | exec
  deriving DecidableEq

/-- The dimensions share their levels, but not every level means something on every dimension. -/
inductive Level
  | none
  | readOnly
  | sandboxed
  | loopback
  | readWrite
  | allowlist
  | full
  deriving DecidableEq

namespace Level

def rank : Level → Nat
  | none => 0
  | readOnly | sandboxed | loopback => 1
  | readWrite | allowlist => 2
  | full => 3

def join (a b : Level) : Level := if b.rank ≤ a.rank then a else b

def jsonName : Level → String
  | none => "None"
  | readOnly => "ReadOnly"
  | sandboxed => "Sandboxed"
  | loopback => "Loopback"
  | readWrite => "ReadWrite"
  | allowlist => "Allowlist"
  | full => "Full"

end Level

namespace Dimension

def all : List Dimension := [filesystem, network, exec]

def levels : Dimension → List Level
  | filesystem => [.none, .readOnly, .readWrite, .full]
  | network => [.none, .loopback, .allowlist, .full]
  | exec => [.none, .sandboxed, .full]

def permitsLevel (dim : Dimension) (level : Level) : Bool := dim.levels.contains level

end Dimension

inductive TrustError
  | widens (dimension : Dimension) (parent requested : Level)
  | effectNotPermitted (effect : String) (dimension : Dimension) (required granted : Level)
  | netHostNotAllowed (host : String) (allowed : Nat)
  | netUnscoped
  | levelNotOnDimension (dimension : Dimension) (level : Level) (allowed : String)

structure Grant where
  filesystem : Level
  network : Level
  exec : Level
  deriving DecidableEq

namespace Grant

def level (grant : Grant) : Dimension → Level
  | .filesystem => grant.filesystem
  | .network => grant.network
  | .exec => grant.exec

def tryNew (filesystem network exec : Level) : Except TrustError Grant := do
  for (dim, level) in [(Dimension.filesystem, filesystem), (.network, network), (.exec, exec)] do
    if !dim.permitsLevel level then
      throw (.levelNotOnDimension dim level
        (", ".intercalate (dim.levels.map fun l => "`" ++ l.jsonName ++ "`")))
  pure ⟨filesystem, network, exec⟩

end Grant

/-! ## What an effect needs -/

def effectRequirement (name : String) : Option (Dimension × Level) :=
  if name = "fs_read" ∨ name = "fs_walk" then some (.filesystem, .readOnly)
  else if name = "fs_write" then some (.filesystem, .readWrite)
  else if name = "net" ∨ name = "http" ∨ name = "mcp" ∨ name = "llm_cloud" then some (.network, .allowlist)
  else if name = "proc" then some (.exec, .sandboxed)
  else if name = "llm_local" then some (.filesystem, .readOnly)
  else none

def isNetEffect (name : String) : Bool := name = "net" ∨ name = "http" ∨ name = "mcp" ∨ name = "llm_cloud"

def scopeArg (e : EffectKind) : Option String :=
  match e.arg with
  | some (.str s) => some s
  | _ => none

/-! ## Derivation -/

structure Authority where
  grant : Grant
  egress : Finset String
  unscopedNet : Bool
  fsRead : Finset String
  fsWrite : Finset String
  effects : Finset String
  offLattice : Finset String

namespace Authority

def start : Authority := ⟨⟨.none, .none, .none⟩, ∅, false, ∅, ∅, ∅, ∅⟩

/-- The level on the dimension that an effect touches. -/
def raise (grant : Grant) : Dimension → Level → Grant
  | .filesystem, required => { grant with filesystem := grant.filesystem.join required }
  | .network, required => { grant with network := grant.network.join required }
  | .exec, required => { grant with exec := grant.exec.join required }

/-- One turn of the loop over the effects. -/
def add (a : Authority) (e : EffectKind) : Authority where
  effects := insert e.name a.effects
  grant :=
    match effectRequirement e.name with
    | some (dim, required) => raise a.grant dim required
    | none => a.grant
  offLattice := if (effectRequirement e.name).isNone then insert e.name a.offLattice else a.offLattice
  egress :=
    match scopeArg e with
    | some host => if isNetEffect e.name then insert host a.egress else a.egress
    | none => a.egress
  unscopedNet := a.unscopedNet || (isNetEffect e.name && (scopeArg e).isNone)
  fsRead :=
    match scopeArg e with
    | some p => if e.name = "fs_read" ∨ e.name = "fs_walk" then insert p a.fsRead else a.fsRead
    | none => a.fsRead
  fsWrite :=
    match scopeArg e with
    | some p => if e.name = "fs_write" then insert p a.fsWrite else a.fsWrite
    | none => a.fsWrite

end Authority

/-- **The least authority that the effects need.** -/
def deriveFromEffects (effects : List EffectKind) : Except TrustError Authority := do
  let a := effects.foldl Authority.add .start
  let grant ← Grant.tryNew a.grant.filesystem a.grant.network a.grant.exec
  pure { a with grant := grant }

/-! ## Comparison -/

inductive Verdict
  | unchanged
  | narrowing
  | widening
  deriving DecidableEq

structure DimensionDelta where
  dimension : Dimension
  «from» : Level
  «to» : Level

def DimensionDelta.widens (d : DimensionDelta) : Bool := d.«to».rank > d.«from».rank

structure AuthorityDiff where
  dimensions : List DimensionDelta
  egressAdded : Finset String
  egressRemoved : Finset String
  fsReadAdded : Finset String
  fsReadRemoved : Finset String
  fsWriteAdded : Finset String
  fsWriteRemoved : Finset String
  offLatticeAdded : Finset String
  offLatticeRemoved : Finset String
  lostNetPrecision : Bool
  verdict : Verdict

/-- Entries of `b` that are not in `a`. -/
def added (a b : Finset String) : Finset String := b.filter (· ∉ a)

section Diff

variable (base head : Authority)

/-- The dimensions whose level moved. -/
def moved : List DimensionDelta :=
  Dimension.all.filterMap fun dim =>
    if (base.grant.level dim).rank ≠ (head.grant.level dim).rank then
      some ⟨dim, base.grant.level dim, head.grant.level dim⟩
    else none

/-- The base had network reach, and had it fully bound to hosts. -/
def lostNetPrecision : Bool := head.unscopedNet && !base.unscopedNet && base.egress ≠ ∅

def widens : Bool :=
  (moved base head).any DimensionDelta.widens || added base.egress head.egress ≠ ∅ ||
    added base.fsRead head.fsRead ≠ ∅ || added base.fsWrite head.fsWrite ≠ ∅ ||
    added base.offLattice head.offLattice ≠ ∅ || lostNetPrecision base head

def narrows : Bool :=
  (moved base head).any (fun d => !d.widens) || added head.egress base.egress ≠ ∅ ||
    added head.fsRead base.fsRead ≠ ∅ || added head.fsWrite base.fsWrite ≠ ∅ ||
    added head.offLattice base.offLattice ≠ ∅ || (base.unscopedNet && !head.unscopedNet)

def diff : AuthorityDiff where
  dimensions := moved base head
  egressAdded := added base.egress head.egress
  egressRemoved := added head.egress base.egress
  fsReadAdded := added base.fsRead head.fsRead
  fsReadRemoved := added head.fsRead base.fsRead
  fsWriteAdded := added base.fsWrite head.fsWrite
  fsWriteRemoved := added head.fsWrite base.fsWrite
  offLatticeAdded := added base.offLattice head.offLattice
  offLatticeRemoved := added head.offLattice base.offLattice
  lostNetPrecision := lostNetPrecision base head
  verdict :=
    if widens base head then .widening else if narrows base head then .narrowing else .unchanged

end Diff

end LexLang.Types
