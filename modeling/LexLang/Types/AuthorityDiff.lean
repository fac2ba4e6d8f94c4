/-
# LexLang.Types.AuthorityDiff — what the comparison of two authorities can tell

A set of effects permits accesses. The verdict is computed from projections of the two sets, and
sees an effect of one of them only where it `Shows` against the other.
-/
import LexLang.Types.Authority
import Mathlib.Data.Set.Finite.Basic

namespace LexLang.Types

open LexLang.Ast (EffectArg)

/-! ## Accesses -/

/-- Something that is reached under an effect's name, at some scope. -/
structure Access where
  name : String
  scope : EffectArg

/-- **What a set of effects permits**: a bare effect every scope, another one its own. -/
def Permits (effects : List EffectKind) (x : Access) : Prop :=
  ∃ e ∈ effects, EffectKind.subsumes e ⟨x.name, some x.scope⟩ = true

/-- Every effect is subsumed by one of the base. -/
def Covered (base effects : List EffectKind) : Prop :=
  ∀ e ∈ effects, ∃ e' ∈ base, EffectKind.subsumes e' e = true

theorem subsumes_iff {self other : EffectKind} :
    EffectKind.subsumes self other = true ↔ self.name = other.name ∧ (self.arg = none ∨ self.arg = other.arg) := by
  unfold EffectKind.subsumes
  by_cases hname : self.name = other.name
  · rw [if_neg (by simpa using hname)]
    rcases hself : self.arg with _ | a <;> rcases hother : other.arg with _ | b <;> simp [hname]
  · simp [hname]

/-- The sets can be compared effect by effect: no finite set of scopes makes up for a bare effect. -/
theorem covered_iff (base effects : List EffectKind) :
    Covered base effects ↔ ∀ x, Permits effects x → Permits base x := by
  constructor
  · rintro h x ⟨e, he, hx⟩
    obtain ⟨e', he', hsub⟩ := h e he
    rw [subsumes_iff] at hx hsub
    refine ⟨e', he', subsumes_iff.mpr ⟨hsub.1.trans hx.1, ?_⟩⟩
    obtain harg | harg := hsub.2
    · exact .inl harg
    · rw [harg]
      exact hx.2
  · intro h e he
    cases harg : e.arg with
    | some scope =>
      obtain ⟨e', he', hsub⟩ := h ⟨e.name, scope⟩ ⟨e, he, subsumes_iff.mpr ⟨rfl, .inr harg⟩⟩
      rw [subsumes_iff] at hsub
      exact ⟨e', he', subsumes_iff.mpr ⟨hsub.1, harg ▸ hsub.2⟩⟩
    | none =>
      -- a scope that no effect of the base names
      have hinj : Function.Injective fun n => some (EffectArg.int n) := fun m n h => by simpa using h
      obtain ⟨_, ⟨n, rfl⟩, hn⟩ := (Set.infinite_range_of_injective hinj).exists_notMem_finset
        (base.map (·.arg)).toFinset
      obtain ⟨e', he', hsub⟩ := h ⟨e.name, .int n⟩ ⟨e, he, subsumes_iff.mpr ⟨rfl, .inl harg⟩⟩
      rw [subsumes_iff] at hsub
      refine ⟨e', he', subsumes_iff.mpr ⟨hsub.1, .inl (hsub.2.resolve_right fun hint => hn ?_)⟩⟩
      rw [List.mem_toFinset]
      exact List.mem_map.mpr ⟨e', he', hint⟩

/-! ## What the derivation keeps of the effects -/

section Derivation

variable {effects : List EffectKind} {e : EffectKind} {s name : String} {dim : Dimension} {r : Nat}

/-- A fact about the result that one turn of the loop adds where it meets an effect with `P`. -/
theorem foldl_add_iff {Q : Authority → Prop} {P : EffectKind → Prop}
    (hadd : ∀ a e, Q (Authority.add a e) ↔ Q a ∨ P e) (a : Authority) :
    Q (effects.foldl Authority.add a) ↔ Q a ∨ ∃ e ∈ effects, P e := by
  induction effects generalizing a with
  | nil => simp
  | cons e effects ih =>
    rw [List.foldl_cons, ih, hadd, or_assoc]
    simp

def tally (effects : List EffectKind) : Authority := effects.foldl Authority.add .start

/-- The effect raises its dimension. -/
def Needs (dim : Dimension) (r : Nat) (e : EffectKind) : Prop :=
  ∃ level, effectRequirement e.name = some (dim, level) ∧ r ≤ level.rank

theorem rank_join (a b : Level) : (a.join b).rank = max a.rank b.rank := by
  unfold Level.join
  split <;> omega

theorem level_tally (hr : 0 < r) : r ≤ ((tally effects).grant.level dim).rank ↔ ∃ e ∈ effects, Needs dim r e := by
  unfold tally
  rw [foldl_add_iff (Q := fun a => r ≤ (a.grant.level dim).rank) (P := Needs dim r)]
  · refine or_iff_right ?_
    cases dim <;> simpa [Authority.start, Grant.level, Level.rank] using hr.ne'
  · intro a e
    unfold Needs
    cases hreq : effectRequirement e.name with
    | none => simp [Authority.add, hreq]
    | some need =>
      obtain ⟨touched, required⟩ := need
      have hgrant : (a.add e).grant = Authority.raise a.grant touched required := by
        unfold Authority.add
        rw [hreq]
      rw [hgrant]
      by_cases hdim : touched = dim
      · subst hdim
        have hlevel : ((Authority.raise a.grant touched required).level touched).rank =
            max (a.grant.level touched).rank required.rank := by
          cases touched <;> exact rank_join _ _
        rw [hlevel, le_max_iff]
        simp
      · have hlevel : (Authority.raise a.grant touched required).level dim = a.grant.level dim := by
          cases touched <;> cases dim <;> first | rfl | exact absurd rfl hdim
        rw [hlevel]
        simp [hdim]

/-- The requirements. The network is needed by the network effects. -/
theorem requirement_cases {need : Dimension × Level} (h : effectRequirement name = some need) :
    need = (.filesystem, .readOnly) ∨ need = (.filesystem, .readWrite) ∨
      (need = (.network, .allowlist) ∧ isNetEffect name = true) ∨ need = (.exec, .sandboxed) := by
  unfold effectRequirement at h
  split at h
  · exact .inl (Option.some.inj h).symm
  · split at h
    · exact .inr (.inl (Option.some.inj h).symm)
    · split at h
      · next hnet => exact .inr (.inr (.inl ⟨(Option.some.inj h).symm, by simpa [isNetEffect] using hnet⟩))
      · split at h
        · exact .inr (.inr (.inr (Option.some.inj h).symm))
        · split at h
          · exact .inl (Option.some.inj h).symm
          · exact nomatch h

theorem requirement_net (h : isNetEffect name = true) : effectRequirement name = some (.network, .allowlist) := by
  have hnet : name = "net" ∨ name = "http" ∨ name = "mcp" ∨ name = "llm_cloud" := by simpa [isNetEffect] using h
  obtain rfl | rfl | rfl | rfl := hnet <;> rfl

theorem requirement_pos {level : Level} (h : effectRequirement name = some (dim, level)) : 0 < level.rank := by
  obtain h | h | ⟨h, -⟩ | h := requirement_cases h <;> cases h <;> decide

/-- The scope of an effect of a kind. -/
def Scoped (kind : String → Bool) (s : String) (e : EffectKind) : Prop := kind e.name = true ∧ scopeArg e = some s

def isReadEffect (name : String) : Bool := name = "fs_read" ∨ name = "fs_walk"

def isWriteEffect (name : String) : Bool := name = "fs_write"

theorem egress_tally : s ∈ (tally effects).egress ↔ ∃ e ∈ effects, Scoped isNetEffect s e := by
  unfold tally
  rw [foldl_add_iff (Q := fun a => s ∈ a.egress) (P := Scoped isNetEffect s)]
  · simp [Authority.start]
  · intro a e
    unfold Scoped Authority.add
    cases scopeArg e with
    | none => simp
    | some host => by_cases hnet : isNetEffect e.name = true <;> simp [hnet, or_comm, eq_comm]

theorem fsRead_tally : s ∈ (tally effects).fsRead ↔ ∃ e ∈ effects, Scoped isReadEffect s e := by
  unfold tally
  rw [foldl_add_iff (Q := fun a => s ∈ a.fsRead) (P := Scoped isReadEffect s)]
  · simp [Authority.start]
  · intro a e
    unfold Scoped Authority.add isReadEffect
    cases scopeArg e with
    | none => simp
    | some p =>
      by_cases hread : e.name = "fs_read" ∨ e.name = "fs_walk"
      · rw [decide_eq_true hread]
        simp only [if_pos hread, Finset.mem_insert, Option.some.injEq, true_and]
        rw [or_comm, eq_comm]
      · rw [decide_eq_false hread]
        simp only [if_neg hread, Bool.false_eq_true, false_and, or_false]

theorem fsWrite_tally : s ∈ (tally effects).fsWrite ↔ ∃ e ∈ effects, Scoped isWriteEffect s e := by
  unfold tally
  rw [foldl_add_iff (Q := fun a => s ∈ a.fsWrite) (P := Scoped isWriteEffect s)]
  · simp [Authority.start]
  · intro a e
    unfold Scoped Authority.add isWriteEffect
    cases scopeArg e with
    | none => simp
    | some p => by_cases hwrite : e.name = "fs_write" <;> simp [hwrite, or_comm, eq_comm]

theorem offLattice_tally :
    name ∈ (tally effects).offLattice ↔ ∃ e ∈ effects, effectRequirement e.name = none ∧ e.name = name := by
  unfold tally
  rw [foldl_add_iff (Q := fun a => name ∈ a.offLattice) (P := fun e => effectRequirement e.name = none ∧ e.name = name)]
  · simp [Authority.start]
  · intro a e
    unfold Authority.add
    cases effectRequirement e.name <;> simp [or_comm, eq_comm]

theorem unscopedNet_tally :
    (tally effects).unscopedNet = true ↔ ∃ e ∈ effects, isNetEffect e.name = true ∧ scopeArg e = none := by
  unfold tally
  rw [foldl_add_iff (Q := fun a => a.unscopedNet = true)
    (P := fun e => isNetEffect e.name = true ∧ scopeArg e = none)]
  · simp [Authority.start]
  · intro a e
    simp [Authority.add]

theorem permitsLevel_requirement {level : Level} (h : effectRequirement name = some (dim, level)) :
    dim.permitsLevel level = true := by
  obtain h | h | ⟨h, -⟩ | h := requirement_cases h <;> cases h <;> decide

theorem permitsLevel_tally (effects : List EffectKind) (dim : Dimension) :
    dim.permitsLevel ((tally effects).grant.level dim) = true := by
  have hjoin : ∀ a b : Level, dim.permitsLevel a = true → dim.permitsLevel b = true →
      dim.permitsLevel (a.join b) = true := by
    intro a b ha hb
    unfold Level.join
    split
    · exact ha
    · exact hb
  have hrun : ∀ (effects : List EffectKind) (a : Authority), dim.permitsLevel (a.grant.level dim) = true →
      dim.permitsLevel ((effects.foldl Authority.add a).grant.level dim) = true := by
    intro effects
    induction effects with
    | nil => exact fun _ => id
    | cons e effects ih =>
      intro a ha
      refine ih _ ?_
      unfold Authority.add
      cases hreq : effectRequirement e.name with
      | none => exact ha
      | some need =>
        obtain ⟨touched, required⟩ := need
        have hrequired := permitsLevel_requirement hreq
        cases touched <;> cases dim <;> first
          | exact ha
          | exact hjoin _ _ ha hrequired
  exact hrun effects .start (by cases dim <;> rfl)

theorem tryNew_eq {filesystem network exec : Level}
    (hfilesystem : Dimension.filesystem.permitsLevel filesystem = true)
    (hnetwork : Dimension.network.permitsLevel network = true) (hexec : Dimension.exec.permitsLevel exec = true) :
    Grant.tryNew filesystem network exec = .ok ⟨filesystem, network, exec⟩ := by
  unfold Grant.tryNew
  simp only [List.forIn_cons, List.forIn_nil, hfilesystem, hnetwork, hexec]
  rfl

/-- Every requirement is a level of its dimension, so the grant can be built. -/
theorem deriveFromEffects_eq (effects : List EffectKind) : deriveFromEffects effects = .ok (tally effects) := by
  have hnew := tryNew_eq (permitsLevel_tally effects .filesystem) (permitsLevel_tally effects .network)
    (permitsLevel_tally effects .exec)
  unfold deriveFromEffects
  show (Grant.tryNew ((tally effects).grant.level .filesystem) ((tally effects).grant.level .network)
    ((tally effects).grant.level .exec) >>= _) = _
  rw [hnew]
  rfl

end Derivation

/-! ## What shows -/

/-- The effect needs more than every effect of the base does on its dimension. -/
def Raises (base : List EffectKind) (e : EffectKind) : Prop :=
  ∃ dim level, effectRequirement e.name = some (dim, level) ∧ ∀ e' ∈ base, ¬ Needs dim level.rank e'

/-- The effect names a scope that no effect of this kind in the base names. -/
def Reaches (kind : String → Bool) (base : List EffectKind) (e : EffectKind) : Prop :=
  ∃ s, Scoped kind s e ∧ ∀ e' ∈ base, ¬ Scoped kind s e'

/-- **The effect shows against the base**: it raises a level, or it names a host, a path that is read or a path that
is written which the base names nowhere, or it is outside of the lattice and the base has none of that name, or it
reaches the network without a scope and the base does so with scopes only. -/
def Shows (base : List EffectKind) (e : EffectKind) : Prop :=
  Raises base e ∨ Reaches isNetEffect base e ∨ Reaches isReadEffect base e ∨ Reaches isWriteEffect base e ∨
    (effectRequirement e.name = none ∧ ∀ e' ∈ base, e'.name ≠ e.name) ∨
    (isNetEffect e.name = true ∧ scopeArg e = none ∧ ∀ e' ∈ base, isNetEffect e'.name = true → scopeArg e' ≠ none)

section Verdicts

variable {base head : List EffectKind}

theorem exists_or_and {α : Type} {l : List α} {P Q : α → Prop} :
    (∃ x ∈ l, P x ∨ Q x) ↔ (∃ x ∈ l, P x) ∨ ∃ x ∈ l, Q x := by
  constructor
  · rintro ⟨x, hx, hP | hQ⟩
    · exact .inl ⟨x, hx, hP⟩
    · exact .inr ⟨x, hx, hQ⟩
  · rintro (⟨x, hx, hP⟩ | ⟨x, hx, hQ⟩)
    · exact ⟨x, hx, .inl hP⟩
    · exact ⟨x, hx, .inr hQ⟩

theorem raises_iff : (∃ e ∈ head, Raises base e) ↔
      ∃ dim, ((tally base).grant.level dim).rank < ((tally head).grant.level dim).rank := by
  constructor
  · rintro ⟨e, he, dim, level, hreq, hno⟩
    refine ⟨dim, ?_⟩
    have hpos : 0 < level.rank := requirement_pos hreq
    have hhead : level.rank ≤ ((tally head).grant.level dim).rank :=
      (level_tally hpos).mpr ⟨e, he, level, hreq, le_rfl⟩
    have hbase : ¬ level.rank ≤ ((tally base).grant.level dim).rank := fun h => by
      obtain ⟨e', he', hneeds⟩ := (level_tally hpos).mp h
      exact hno e' he' hneeds
    omega
  · rintro ⟨dim, hlt⟩
    obtain ⟨e, he, level, hreq, hle⟩ := (level_tally (Nat.succ_pos _)).mp hlt
    refine ⟨e, he, dim, level, hreq, fun e' he' hneeds => ?_⟩
    have hbase := (level_tally (requirement_pos hreq)).mpr ⟨e', he', hneeds⟩
    omega

theorem reaches_iff {kind : String → Bool} {field : Authority → Finset String}
    (h : ∀ effects s, s ∈ field (tally effects) ↔ ∃ e ∈ effects, Scoped kind s e) :
    (∃ e ∈ head, Reaches kind base e) ↔ added (field (tally base)) (field (tally head)) ≠ ∅ := by
  rw [← Finset.nonempty_iff_ne_empty]
  unfold added Reaches
  constructor
  · rintro ⟨e, he, s, hs, hno⟩
    refine ⟨s, Finset.mem_filter.mpr ⟨(h head s).mpr ⟨e, he, hs⟩, fun hbase => ?_⟩⟩
    obtain ⟨e', he', hs'⟩ := (h base s).mp hbase
    exact hno e' he' hs'
  · rintro ⟨s, hs⟩
    obtain ⟨hhead, hbase⟩ := Finset.mem_filter.mp hs
    obtain ⟨e, he, hs⟩ := (h head s).mp hhead
    exact ⟨e, he, s, hs, fun e' he' hs' => hbase ((h base s).mpr ⟨e', he', hs'⟩)⟩

theorem outside_iff : (∃ e ∈ head, effectRequirement e.name = none ∧ ∀ e' ∈ base, e'.name ≠ e.name) ↔
      added (tally base).offLattice (tally head).offLattice ≠ ∅ := by
  rw [← Finset.nonempty_iff_ne_empty]
  unfold added
  constructor
  · rintro ⟨e, he, hreq, hno⟩
    refine ⟨e.name, Finset.mem_filter.mpr ⟨offLattice_tally.mpr ⟨e, he, hreq, rfl⟩, fun hbase => ?_⟩⟩
    obtain ⟨e', he', -, hname⟩ := offLattice_tally.mp hbase
    exact hno e' he' hname
  · rintro ⟨name, hname⟩
    obtain ⟨hhead, hbase⟩ := Finset.mem_filter.mp hname
    obtain ⟨e, he, hreq, rfl⟩ := offLattice_tally.mp hhead
    exact ⟨e, he, hreq, fun e' he' hname => hbase (offLattice_tally.mpr ⟨e', he', hname ▸ hreq, hname⟩)⟩

theorem unscoped_iff : (∃ e ∈ head, isNetEffect e.name = true ∧ scopeArg e = none ∧
      ∀ e' ∈ base, isNetEffect e'.name = true → scopeArg e' ≠ none) ↔
      ((tally head).unscopedNet = true ∧ (tally base).unscopedNet = false) := by
  rw [← Bool.not_eq_true, unscopedNet_tally, unscopedNet_tally]
  constructor
  · rintro ⟨e, he, hnet, hscope, hno⟩
    exact ⟨⟨e, he, hnet, hscope⟩, fun ⟨e', he', hnet', hscope'⟩ => hno e' he' hnet' hscope'⟩
  · rintro ⟨⟨e, he, hnet, hscope⟩, hno⟩
    exact ⟨e, he, hnet, hscope, fun e' he' hnet' hscope' => hno ⟨e', he', hnet', hscope'⟩⟩

/-- Where the base has no host either, the level says it. -/
theorem raises_of_no_net (hhead : (tally head).unscopedNet = true) (hbase : (tally base).unscopedNet = false)
    (hegress : (tally base).egress = ∅) : ∃ e ∈ head, Raises base e := by
  obtain ⟨e, he, hnet, -⟩ := unscopedNet_tally.mp hhead
  refine ⟨e, he, .network, .allowlist, requirement_net hnet, fun e' he' hneeds => ?_⟩
  obtain ⟨level, hreq, -⟩ := hneeds
  have hnet' : isNetEffect e'.name = true := by
    obtain h | h | ⟨h, hnet'⟩ | h := requirement_cases hreq
    · cases h
    · cases h
    · exact hnet'
    · cases h
  cases hscope : scopeArg e' with
  | none => exact absurd (unscopedNet_tally.mpr ⟨e', he', hnet', hscope⟩) (by simp [hbase])
  | some s =>
    have hmem : s ∈ (tally base).egress := egress_tally.mpr ⟨e', he', hnet', hscope⟩
    rw [hegress] at hmem
    exact absurd hmem (Finset.notMem_empty s)

theorem shows_iff : (∃ e ∈ head, Shows base e) ↔
      (∃ dim, ((tally base).grant.level dim).rank < ((tally head).grant.level dim).rank) ∨
      added (tally base).egress (tally head).egress ≠ ∅ ∨ added (tally base).fsRead (tally head).fsRead ≠ ∅ ∨
      added (tally base).fsWrite (tally head).fsWrite ≠ ∅ ∨
      added (tally base).offLattice (tally head).offLattice ≠ ∅ ∨
      ((tally head).unscopedNet = true ∧ (tally base).unscopedNet = false) := by
  unfold Shows
  rw [exists_or_and, exists_or_and, exists_or_and, exists_or_and, exists_or_and, raises_iff,
    reaches_iff fun _ _ => egress_tally, reaches_iff fun _ _ => fsRead_tally, reaches_iff fun _ _ => fsWrite_tally,
    outside_iff, unscoped_iff]

theorem any_moved {a b : Authority} {P : DimensionDelta → Bool} {Q : Dimension → Prop}
    (hP : ∀ dim, P ⟨dim, a.grant.level dim, b.grant.level dim⟩ = true ∧
      (a.grant.level dim).rank ≠ (b.grant.level dim).rank ↔ Q dim) : (moved a b).any P = true ↔ ∃ dim, Q dim := by
  unfold moved
  rw [List.any_eq_true]
  constructor
  · rintro ⟨d, hd, hPd⟩
    obtain ⟨dim, -, hsome⟩ := List.mem_filterMap.mp hd
    split at hsome
    · next hne =>
      obtain rfl := Option.some.inj hsome
      exact ⟨dim, (hP dim).mp ⟨hPd, hne⟩⟩
    · exact nomatch hsome
  · rintro ⟨dim, hQ⟩
    obtain ⟨hPd, hne⟩ := (hP dim).mpr hQ
    refine ⟨_, List.mem_filterMap.mpr ⟨dim, by cases dim <;> decide, if_pos hne⟩, hPd⟩

theorem widens_iff : widens (tally base) (tally head) = true ↔ ∃ e ∈ head, Shows base e := by
  have hup : (moved (tally base) (tally head)).any DimensionDelta.widens = true ↔
      ∃ dim, ((tally base).grant.level dim).rank < ((tally head).grant.level dim).rank := by
    refine any_moved fun dim => ?_
    rw [DimensionDelta.widens, decide_eq_true_eq]
    dsimp only
    omega
  rw [shows_iff, ← hup]
  unfold widens lostNetPrecision
  simp only [Bool.or_eq_true, Bool.and_eq_true, Bool.not_eq_true', decide_eq_true_eq, or_assoc]
  refine ⟨?_, ?_⟩
  · rintro (h | h | h | h | h | ⟨h, -⟩)
    exacts [.inl h, .inr (.inl h), .inr (.inr (.inl h)), .inr (.inr (.inr (.inl h))),
      .inr (.inr (.inr (.inr (.inl h)))), .inr (.inr (.inr (.inr (.inr h))))]
  · rintro (h | h | h | h | h | h)
    · exact .inl h
    · exact .inr (.inl h)
    · exact .inr (.inr (.inl h))
    · exact .inr (.inr (.inr (.inl h)))
    · exact .inr (.inr (.inr (.inr (.inl h))))
    · by_cases hegress : (tally base).egress = ∅
      · exact .inl (hup.mpr (raises_iff.mp (raises_of_no_net h.1 h.2 hegress)))
      · exact .inr (.inr (.inr (.inr (.inr ⟨h, hegress⟩))))

theorem narrows_iff : narrows (tally base) (tally head) = true ↔ ∃ e ∈ base, Shows head e := by
  have hdown : (moved (tally base) (tally head)).any (fun d => !d.widens) = true ↔
      ∃ dim, ((tally head).grant.level dim).rank < ((tally base).grant.level dim).rank := by
    refine any_moved fun dim => ?_
    rw [DimensionDelta.widens, Bool.not_eq_true', decide_eq_false_iff_not]
    dsimp only
    omega
  rw [shows_iff, ← hdown]
  unfold narrows
  simp only [Bool.or_eq_true, Bool.and_eq_true, Bool.not_eq_true', decide_eq_true_eq, or_assoc]

/-! ## The claims that a verdict makes -/

/-- **The verdict never understates the change.** -/
def NeverUnderstates (base head : List EffectKind) : Prop :=
  ∀ b h, deriveFromEffects base = .ok b → deriveFromEffects head = .ok h →
    ((diff b h).verdict = .unchanged → ∀ x, Permits base x ↔ Permits head x) ∧
      ((diff b h).verdict = .narrowing → ∀ x, Permits head x → Permits base x) ∧
      ((∃ x, Permits head x ∧ ¬ Permits base x) → (diff b h).verdict = .widening)

/-- If nothing of the head shows, the base covers it; if nothing of the base shows either, the head covers the
base. -/
def Told (base head : List EffectKind) : Prop :=
  (∃ e ∈ head, Shows base e) ∨ (Covered base head ∧ ((∃ e ∈ base, Shows head e) ∨ Covered head base))

end Verdicts

end LexLang.Types
