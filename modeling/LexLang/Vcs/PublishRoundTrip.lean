/-
# LexLang.Vcs.PublishRoundTrip — replaying a diff gives the new program

What a publish relies on (`publish_roundTrip`). Order turns out not to matter: every operation
writes what the new head holds (`towards_of_fromEntries`), and where the heads differ one of them
writes (`head_eq_or_written`).
-/
import LexLang.Vcs.DiffToOps

namespace LexLang.Vcs

open LexLang.Ast
open List

/-! ## Programs by name -/

/-- **A program**: its declarations in some order, no two functions or types of one name. -/
structure Program where
  stages : List Stage
  distinct : (stages.filterMap Stage.declName).Nodup

/-- A function under its name. -/
def fnEntry : Stage → Option (String × FnDecl)
  | .fnDecl decl => some (decl.name, decl)
  | _ => none

/-- A type under its name. -/
def typeEntry : Stage → Option (String × TypeDecl)
  | .typeDecl decl => some (decl.name, decl)
  | _ => none

/-- The stage id of a declaration under its sig id. -/
def headEntry (hashes : Hashes) (stage : Stage) : Option (SigId × StageId) :=
  (sigId hashes stage).bind fun sig => (stageId hashes stage).map fun stg => (sig, stg)

namespace Program

/-- The functions by name. -/
def fns (p : Program) : Std.ExtTreeMap String FnDecl :=
  Std.ExtTreeMap.ofList (p.stages.filterMap fnEntry)

/-- The types by name. -/
def types (p : Program) : Std.ExtTreeMap String TypeDecl :=
  Std.ExtTreeMap.ofList (p.stages.filterMap typeEntry)

/-- The head that names exactly this program. -/
def head (hashes : Hashes) (p : Program) : HeadMap :=
  Std.ExtTreeMap.ofList (p.stages.filterMap (headEntry hashes))

end Program

theorem getElem?_ofList_iff {β : Type} {entries : List (String × β)}
    (hnd : (entries.map Prod.fst).Nodup) {key : String} {value : β} :
    (Std.ExtTreeMap.ofList entries)[key]? = some value ↔ (key, value) ∈ entries := by
  have hdistinct : entries.Pairwise fun a b => ¬ compare a.1 b.1 = .eq := by
    simpa only [List.Nodup, pairwise_map, Std.compare_eq_iff_eq] using hnd
  constructor
  · intro h
    by_cases hkey : key ∈ entries.map Prod.fst
    · obtain ⟨⟨_, value'⟩, hmem, rfl⟩ := mem_map.mp hkey
      rw [Std.ExtTreeMap.getElem?_ofList_of_mem Std.compare_self hdistinct hmem] at h
      exact Option.some.inj h ▸ hmem
    · have hnone : (Std.ExtTreeMap.ofList entries)[key]? = none :=
        Std.ExtTreeMap.getElem?_ofList_of_contains_eq_false (by simpa using hkey)
      rw [hnone] at h
      cases h
  · intro hmem
    exact Std.ExtTreeMap.getElem?_ofList_of_mem Std.compare_self hdistinct hmem

variable {stage : Stage}

variable {stage' : Stage}

theorem declName_eq_of_key_eq (h : stage.key = stage'.key) : stage.declName = stage'.declName := by
  cases stage <;> cases stage' <;> simp_all [Stage.key, Stage.declName]

variable {name : String}

theorem headEntry_eq_some (hashes : Hashes) (h : stage.declName = some name) :
    ∃ sig stg, sigId hashes stage = some sig ∧ stageId hashes stage = some stg := by
  cases stage with
  | fnDecl decl | typeDecl decl => exact ⟨_, _, rfl, rfl⟩
  | importDecl => cases h

variable {sig : SigId}

theorem declName_of_sigId {hashes : Hashes}
    (h : sigId hashes stage = some sig) : ∃ name, stage.declName = some name := by
  cases stage with
  | fnDecl decl | typeDecl decl => exact ⟨_, rfl⟩
  | importDecl => cases h

theorem declName_eq_of_sigId_eq {hashes : Hashes}
    (h : sigId hashes stage = some sig) (h' : sigId hashes stage' = some sig) :
    stage.declName = stage'.declName := declName_eq_of_key_eq (key_eq_of_sigId_eq h h')

variable {stg : StageId} {decl : FnDecl}

namespace Program

variable {hashes : Hashes} (p : Program)

/-- A map of entries, of which no two declarations of different names have the same key, holds what
the declarations enter. -/
theorem getElem?_entries {γ : Type} {entry : Stage → Option (String × γ)}
    (hname : ∀ stage stage' e e', entry stage = some e → entry stage' = some e' → e.1 = e'.1 →
      ∃ name, stage.declName = some name ∧ stage'.declName = some name) {key : String} {value : γ} :
    (Std.ExtTreeMap.ofList (p.stages.filterMap entry))[key]? = some value ↔
      ∃ stage ∈ p.stages, entry stage = some (key, value) := by
  have hnd := p.distinct
  rw [List.Nodup, pairwise_filterMap] at hnd
  rw [getElem?_ofList_iff, mem_filterMap]
  rw [List.Nodup, pairwise_map, pairwise_filterMap]
  refine hnd.imp fun {stage stage'} hne e hentry e' hentry' heq => ?_
  obtain ⟨name, h, h'⟩ := hname stage stage' e e' hentry hentry' heq
  exact hne name h name h' rfl

theorem getElem?_sort {γ : Type} {entry : Stage → Option (String × γ)} {mk : γ → Stage}
    (hentry : ∀ stage e, entry stage = some e ↔ stage = mk e.2 ∧ stage.declName = some e.1) {value : γ} :
    (Std.ExtTreeMap.ofList (p.stages.filterMap entry))[name]? = some value ↔
      mk value ∈ p.stages ∧ (mk value).declName = some name := by
  rw [p.getElem?_entries fun stage stage' e e' h h' heq =>
    ⟨e.1, ((hentry stage e).mp h).2, heq ▸ ((hentry stage' e').mp h').2⟩]
  constructor
  · rintro ⟨stage, hmem, h⟩
    obtain ⟨rfl, hname⟩ := (hentry stage _).mp h
    exact ⟨hmem, hname⟩
  · rintro ⟨hmem, hname⟩
    exact ⟨_, hmem, (hentry _ _).mpr ⟨rfl, hname⟩⟩

theorem getElem?_fns : p.fns[name]? = some decl ↔ .fnDecl decl ∈ p.stages ∧ decl.name = name := by
  have hsort := @p.getElem?_sort name FnDecl fnEntry .fnDecl ?_ decl
  · simpa [fns, Stage.declName] using hsort
  · rintro (_ | _ | _) e <;> simp [fnEntry, Stage.declName, Prod.ext_iff, and_comm]

theorem getElem?_types {decl : TypeDecl} :
    p.types[name]? = some decl ↔ .typeDecl decl ∈ p.stages ∧ decl.name = name := by
  have hsort := @p.getElem?_sort name TypeDecl typeEntry .typeDecl ?_ decl
  · simpa [types, Stage.declName] using hsort
  · rintro (_ | _ | _) e <;> simp [typeEntry, Stage.declName, Prod.ext_iff, and_comm]

theorem getElem?_newByName : (newByName p.stages)[name]? = some stage ↔
      stage ∈ p.stages ∧ stage.declName = some name := by
  refine @p.getElem?_sort name Stage (fun stage => stage.declName.map fun name => (name, stage)) id ?_ stage
  rintro stage e
  simp [Prod.ext_iff, and_comm]

theorem eq_of_declName_eq (hmem : stage ∈ p.stages) (hmem' : stage' ∈ p.stages) (hname : stage.declName = some name)
    (hname' : stage'.declName = some name) : stage = stage' := by
  have h := p.getElem?_newByName.mpr ⟨hmem, hname⟩
  rw [p.getElem?_newByName.mpr ⟨hmem', hname'⟩] at h
  exact (Option.some.inj h).symm

theorem getElem?_head : (p.head hashes)[sig]? = some stg ↔
      ∃ stage ∈ p.stages, sigId hashes stage = some sig ∧ stageId hashes stage = some stg := by
  have hids : ∀ stage e, headEntry hashes stage = some e ↔
      sigId hashes stage = some e.1 ∧ stageId hashes stage = some e.2 := by
    intro stage e
    simp [headEntry, Option.bind_eq_some_iff, Prod.ext_iff]
  rw [head, p.getElem?_entries]
  · simp only [hids]
  · intro stage stage' e e' h h' heq
    obtain ⟨hsig, -⟩ := (hids stage e).mp h
    obtain ⟨name, hname⟩ := declName_of_sigId hsig
    exact ⟨name, hname, (declName_eq_of_sigId_eq hsig (heq ▸ ((hids stage' e').mp h').1)) ▸ hname⟩

theorem getElem?_head_eq_none (hsig : sigId hashes stage = some sig) (hname : stage.declName = some name)
    (h : ∀ other ∈ p.stages, other.declName = some name → sigId hashes other ≠ some sig) :
    (p.head hashes)[sig]? = none := by
  rw [Option.eq_none_iff_forall_ne_some]
  intro stg hget
  obtain ⟨other, hmem, hother, -⟩ := p.getElem?_head.mp hget
  exact h other hmem ((declName_eq_of_sigId_eq hother hsig).trans hname) hother

end Program

/-! ## Writing towards a target -/

variable {target : HeadMap}

/-- **Order does not matter** to transitions that write nothing but what a target holds: where the
map already agrees with the target, or one of them writes, the result agrees with it. -/
theorem getElem?_foldl_applyTransition :
    ∀ {transitions : List StageTransition} {map : HeadMap},
      (∀ t ∈ transitions, ∀ w, t.writes sig = some w → w = target[sig]?) →
      (map[sig]? = target[sig]? ∨ ∃ t ∈ transitions, (t.writes sig).isSome) →
      (transitions.foldl applyTransition map)[sig]? = target[sig]?
  | [], map, _, h => by
    rcases h with h | ⟨t, ht, -⟩
    · exact h
    · exact absurd ht not_mem_nil
  | t :: transitions, map, hwrites, h => by
    apply getElem?_foldl_applyTransition fun t' ht' => hwrites t' (mem_cons_of_mem _ ht')
    rw [getElem?_applyTransition]
    cases hw : t.writes sig with
    | some w => exact .inl (hwrites t mem_cons_self w hw)
    | none =>
      rcases h with h | ⟨t', ht', hsome⟩
      · exact .inl h
      · rcases mem_cons.mp ht' with rfl | ht'
        · rw [hw] at hsome
          cases hsome
        · exact .inr ⟨t', ht', hsome⟩

/-- A transition writes only what the target holds. -/
def Towards (target : HeadMap) (t : StageTransition) : Prop :=
  ∀ sig w, t.writes sig = some w → w = target[sig]?

/-- A mapping succeeds with an operation that writes the given sigs, towards the target. -/
def Maps (target : HeadMap) (result : Except DiffMappingError OperationKind)
    (sigs : List SigId) : Prop :=
  ∃ kind, result = .ok kind ∧ Towards target (transitionForKind kind) ∧
    ∀ sig ∈ sigs, ((transitionForKind kind).writes sig).isSome

variable {kind : OperationKind}

theorem Maps.of_ok {sigs : List SigId} (h : Maps target (.ok kind) sigs) : Towards target (transitionForKind kind) ∧
      ∀ sig ∈ sigs, ((transitionForKind kind).writes sig).isSome := by
  obtain ⟨kind', hkind, h⟩ := h
  rwa [Except.ok.inj hkind]

theorem towards_create (h : target[sig]? = some stg) : Towards target (.create sig stg) := by
  intro s w hw
  rw [StageTransition.writes] at hw
  split at hw
  · rename_i hs
    rw [hs, h, Option.some.inj hw]
  · cases hw

theorem towards_replace {last : StageId}
    (h : target[sig]? = some stg) : Towards target (.replace sig last stg) := towards_create h

theorem towards_remove {last : StageId} (h : target[sig]? = none) : Towards target (.remove sig last) := by
  intro s w hw
  rw [StageTransition.writes] at hw
  split at hw
  · rename_i hs
    rw [hs, h, Option.some.inj hw]
  · cases hw

variable {toSig : SigId}

theorem towards_rename (hgone : target[sig]? = none) (h : target[toSig]? = some stg) :
    Towards target (.rename sig toSig stg) := by
  intro s w hw
  rw [StageTransition.writes] at hw
  split at hw
  · rename_i hs
    rw [hs, h, Option.some.inj hw]
  · split at hw
    · rename_i hs
      rw [hs, hgone, Option.some.inj hw]
    · cases hw

theorem isSome_writes_rename {fromSig : SigId} :
    ∀ sig ∈ [fromSig, toSig], ((StageTransition.rename fromSig toSig stg).writes sig).isSome := by
  intro sig hsig
  rw [StageTransition.writes]
  split
  · rfl
  · rename_i hne
    have hfrom : sig = fromSig := by simpa [hne] using hsig
    rw [if_pos hfrom]
    rfl

/-! ## Each entry is mapped -/

section RoundTrip

variable (hashes : Hashes) (debugStr : String → String) (a b : Program)
  (oldEffects : Std.ExtTreeMap SigId EffectSet) (oldImports newImports : ImportMap)
  (modulePrefixes : Std.ExtTreeMap String String)

/-- **What a publish of `b` over `a` maps**: the head of the one, the declarations of the other and
the diff between them. -/
def publishInputs : DiffInputs where
  oldHead := a.head hashes
  oldEffects := oldEffects
  oldImports := oldImports
  newStages := b.stages
  newImports := newImports
  diff := computeDiffWithTypes hashes debugStr a.fns b.fns a.types b.types
  modulePrefixes := modulePrefixes

variable {hashes debugStr a b oldEffects oldImports newImports modulePrefixes} {inputs : DiffInputs}

theorem newStageFor_spec (hnew : inputs.newStages = b.stages)
    (hmem : stage ∈ b.stages) (hname : stage.declName = some name) :
    ∃ sig stg, newStageFor hashes inputs name = .ok (stage, sig, stg) ∧
      sigId hashes stage = some sig ∧ stageId hashes stage = some stg ∧ (b.head hashes)[sig]? = some stg := by
  obtain ⟨sig, stg, hsig, hstg⟩ := headEntry_eq_some hashes hname
  refine ⟨sig, stg, ?_, hsig, hstg, b.getElem?_head.mpr ⟨stage, hmem, hsig, hstg⟩⟩
  rw [newStageFor, hnew, b.getElem?_newByName.mpr ⟨hmem, hname⟩]
  simp only [hsig, hstg]

variable {r : AddRemove}

theorem removedOp_maps (hold : inputs.oldHead = a.head hashes)
    (hmem : stage ∈ a.stages) (hsig : sigId hashes stage = some sig)
    (hgone : (b.head hashes)[sig]? = none) (hr : r.oldSigId = some sig) :
    Maps (b.head hashes) (removedOp inputs r) [sig] := by
  obtain ⟨name, hname⟩ := declName_of_sigId hsig
  obtain ⟨_, stg, _, hstg⟩ := headEntry_eq_some hashes hname
  have hlast : inputs.oldHead[sig]? = some stg := by
    rw [hold]
    exact a.getElem?_head.mpr ⟨stage, hmem, hsig, hstg⟩
  unfold removedOp
  simp only [hr, hlast]
  split
  · refine ⟨_, rfl, towards_remove hgone, ?_⟩
    simp [transitionForKind, StageTransition.writes]
  · refine ⟨_, rfl, towards_remove hgone, ?_⟩
    simp [transitionForKind, StageTransition.writes]

theorem addedOp_maps (hnew : inputs.newStages = b.stages)
    (hmem : stage ∈ b.stages) (hname : stage.declName = some r.name) (hsig : sigId hashes stage = some sig) :
    Maps (b.head hashes) (addedOp hashes debugStr inputs r) [sig] := by
  obtain ⟨sig', stg, hfor, hsig', hstg, hhead⟩ := newStageFor_spec hnew hmem hname
  obtain rfl : sig' = sig := Option.some.inj (hsig'.symm.trans hsig)
  unfold addedOp
  simp only [hfor]
  cases stage with
  | fnDecl decl | typeDecl decl =>
    refine ⟨_, rfl, towards_create hhead, ?_⟩
    simp [transitionForKind, StageTransition.writes]
  | importDecl => cases hname

theorem renamedOp_maps (hnew : inputs.newStages = b.stages)
    {r : Renamed} (hgone : (b.head hashes)[r.oldSigId]? = none) (hmem : stage ∈ b.stages)
    (hname : stage.declName = some r.toName) (hsig : sigId hashes stage = some toSig) :
    Maps (b.head hashes) (renamedOp hashes inputs r) [r.oldSigId, toSig] := by
  obtain ⟨sig', stg, hfor, hsig', hstg, hhead⟩ := newStageFor_spec hnew hmem hname
  obtain rfl : sig' = toSig := Option.some.inj (hsig'.symm.trans hsig)
  unfold renamedOp
  simp only [hfor]
  exact ⟨_, rfl, towards_rename hgone hhead, isSome_writes_rename⟩

theorem modifiedOp_maps (hold : inputs.oldHead = a.head hashes) (hnew : inputs.newStages = b.stages)
    {m : Modified} (hmem : stage ∈ a.stages)
    (hsig : sigId hashes stage = some m.oldSigId) (hname : stage.declName = some m.name)
    (hmem' : stage' ∈ b.stages) (hname' : stage'.declName = some m.name) (hsig' : sigId hashes stage' = some toSig) :
    Maps (b.head hashes) (modifiedOp hashes debugStr inputs m) [m.oldSigId, toSig] := by
  obtain ⟨_, fromId, _, hfrom⟩ := headEntry_eq_some hashes hname
  obtain ⟨_, toId, _, hto⟩ := headEntry_eq_some hashes hname'
  have hlast : inputs.oldHead[m.oldSigId]? = some fromId := by
    rw [hold]
    exact a.getElem?_head.mpr ⟨stage, hmem, hsig, hfrom⟩
  have hhead : (b.head hashes)[toSig]? = some toId := b.getElem?_head.mpr ⟨stage', hmem', hsig', hto⟩
  -- the old sig is free once the declaration has another one
  have hgone : toSig ≠ m.oldSigId → (b.head hashes)[m.oldSigId]? = none := by
    intro hne
    apply b.getElem?_head_eq_none hsig hname
    intro other hother hname'' hsig''
    obtain rfl := b.eq_of_declName_eq hother hmem' hname'' hname'
    exact hne (Option.some.inj (hsig'.symm.trans hsig''))
  have hmove : ∀ kind, (toSig = m.oldSigId → transitionForKind kind = .replace m.oldSigId fromId toId) →
      (toSig ≠ m.oldSigId → transitionForKind kind = .rename m.oldSigId toSig toId) →
      Maps (b.head hashes) (.ok kind) [m.oldSigId, toSig] := by
    intro kind hreplace hrename
    refine ⟨kind, rfl, ?_⟩
    by_cases hsame : toSig = m.oldSigId
    · rw [hreplace hsame]
      refine ⟨towards_replace (hsame ▸ hhead), ?_⟩
      simp [StageTransition.writes, hsame]
    · rw [hrename hsame]
      exact ⟨towards_rename (hgone hsame) hhead, isSome_writes_rename⟩
  unfold modifiedOp
  rw [hnew]
  simp only [hlast, b.getElem?_newByName.mpr ⟨hmem', hname'⟩, hto, hsig']
  cases stage' with
  | fnDecl decl =>
    simp only
    split <;> apply hmove <;> intro hsame <;> simp [transitionForKind, hsame, Option.filter_some]
  | typeDecl decl => apply hmove <;> intro hsame <;> simp [transitionForKind, hsame, Option.filter_some]
  | importDecl => cases hname'

/-! ## What the diff lists -/

theorem mem_onlyIn {α β : Type} {x : Std.ExtTreeMap String α} {y : Std.ExtTreeMap String β}
    {entry : String × α} : entry ∈ onlyIn x y ↔ x[entry.1]? = some entry.2 ∧ y[entry.1]? = none := by
  rw [onlyIn, mem_filter, Std.ExtTreeMap.mem_toList_iff_getElem?_eq_some, decide_eq_true_iff,
    Std.ExtTreeMap.mem_iff_isSome_getElem?, Option.not_isSome_iff_eq_none]

theorem mem_inBoth {α β : Type} {x : Std.ExtTreeMap String α} {y : Std.ExtTreeMap String β} {entry : String × α × β} :
    entry ∈ inBoth x y ↔ x[entry.1]? = some entry.2.1 ∧ y[entry.1]? = some entry.2.2 := by
  obtain ⟨name, d, d'⟩ := entry
  simp only [inBoth, mem_filterMap, Option.map_eq_some_iff, Prod.mk.injEq]
  constructor
  · rintro ⟨⟨_, _⟩, hx, other, hy, rfl, rfl, rfl⟩
    exact ⟨Std.ExtTreeMap.mem_toList_iff_getElem?_eq_some.mp hx, hy⟩
  · rintro ⟨hx, hy⟩
    exact ⟨(name, d), Std.ExtTreeMap.mem_toList_iff_getElem?_eq_some.mpr hx, d', hy, rfl, rfl, rfl⟩

theorem mem_renamedPairs {onlyB : List (String × FnDecl)} :
    ∀ {onlyA : List (String × FnDecl)} {consumed : List String}
      {pair : (String × FnDecl) × (String × FnDecl)},
      pair ∈ renamedPairs hashes onlyB onlyA consumed → pair.1 ∈ onlyA ∧ pair.2 ∈ onlyB
  | [], _, _, h => absurd h not_mem_nil
  | gone :: onlyA, consumed, pair, h => by
    rw [renamedPairs] at h
    split at h
    · obtain ⟨h₁, h₂⟩ := mem_renamedPairs h
      exact ⟨mem_cons_of_mem _ h₁, h₂⟩
    · rename_i fresh hfind
      rcases mem_cons.mp h with rfl | h
      · exact ⟨mem_cons_self, List.mem_of_find?_eq_some hfind⟩
      · obtain ⟨h₁, h₂⟩ := mem_renamedPairs h
        exact ⟨mem_cons_of_mem _ h₁, h₂⟩

/-- No declaration of the name in that sort frees the sig. -/
theorem fn_gone (hsig : sigId hashes (.fnDecl decl) = some sig)
    (hnone : b.fns[decl.name]? = none) : (b.head hashes)[sig]? = none := by
  apply b.getElem?_head_eq_none hsig rfl
  intro other hmem hname hother
  have hkey := key_eq_of_sigId_eq hother hsig
  cases other with
  | fnDecl decl' =>
    rw [b.getElem?_fns.mpr ⟨hmem, Option.some.inj hname⟩] at hnone
    cases hnone
  | typeDecl | importDecl => cases hkey

theorem type_gone {decl : TypeDecl} (hsig : sigId hashes (.typeDecl decl) = some sig)
    (hnone : b.types[decl.name]? = none) : (b.head hashes)[sig]? = none := by
  apply b.getElem?_head_eq_none hsig rfl
  intro other hmem hname hother
  have hkey := key_eq_of_sigId_eq hother hsig
  cases other with
  | typeDecl decl' =>
    rw [b.getElem?_types.mpr ⟨hmem, Option.some.inj hname⟩] at hnone
    cases hnone
  | fnDecl | importDecl => cases hkey

/-- A type that moved to another sig frees the old one. -/
theorem type_moved {decl decl' : TypeDecl} (hmem' : .typeDecl decl' ∈ b.stages)
    (hname : decl.name = decl'.name) (hsig : sigId hashes (.typeDecl decl) = some sig)
    (hmoved : typeMoved hashes (decl.name, decl, decl')) : (b.head hashes)[sig]? = none := by
  apply b.getElem?_head_eq_none hsig rfl
  intro other hmem hother hsig'
  obtain rfl := b.eq_of_declName_eq hmem hmem' hother (hname ▸ rfl)
  rw [typeMoved, Bool.and_eq_true] at hmoved
  exact bne_iff_ne.mp hmoved.2 (hsig.trans hsig'.symm)

section Report

variable (hashes debugStr a b)

/-- The diff of the two programs. -/
def programDiff : DiffReport := computeDiffWithTypes hashes debugStr a.fns b.fns a.types b.types

variable {hashes debugStr a b}

theorem removed_spec (h : r ∈ (programDiff hashes debugStr a b).removed) :
    ∃ stage ∈ a.stages, ∃ sig, sigId hashes stage = some sig ∧ r.oldSigId = some sig ∧
      (b.head hashes)[sig]? = none := by
  simp only [programDiff, computeDiffWithTypes, mem_append, mem_map, mem_filter] at h
  rcases h with (⟨entry, ⟨hentry, -⟩, rfl⟩ | ⟨entry, hentry, rfl⟩) | ⟨entry, ⟨hentry, hmoved⟩, rfl⟩
  · obtain ⟨hfn, hnone⟩ := mem_onlyIn.mp hentry
    obtain ⟨hmem, hname⟩ := a.getElem?_fns.mp hfn
    exact ⟨_, hmem, _, rfl, rfl, fn_gone rfl (hname ▸ hnone)⟩
  · obtain ⟨hty, hnone⟩ := mem_onlyIn.mp hentry
    obtain ⟨hmem, hname⟩ := a.getElem?_types.mp hty
    exact ⟨_, hmem, _, rfl, rfl, type_gone rfl (hname ▸ hnone)⟩
  · obtain ⟨name, decl, decl'⟩ := entry
    obtain ⟨hty, hty'⟩ := mem_inBoth.mp hentry
    obtain ⟨hmem, hname⟩ := a.getElem?_types.mp hty
    obtain ⟨hmem', hname'⟩ := b.getElem?_types.mp hty'
    exact ⟨_, hmem, _, rfl, rfl, type_moved hmem' (hname.trans hname'.symm) rfl hmoved⟩

theorem added_spec (h : r ∈ (programDiff hashes debugStr a b).added) :
    ∃ stage ∈ b.stages, stage.declName = some r.name := by
  simp only [programDiff, computeDiffWithTypes, mem_append, mem_map, mem_filter] at h
  rcases h with (⟨entry, ⟨hentry, -⟩, rfl⟩ | ⟨entry, hentry, rfl⟩) | ⟨entry, ⟨hentry, -⟩, rfl⟩
  · obtain ⟨hmem, hname⟩ := b.getElem?_fns.mp (mem_onlyIn.mp hentry).1
    exact ⟨_, hmem, congrArg some hname⟩
  · obtain ⟨hmem, hname⟩ := b.getElem?_types.mp (mem_onlyIn.mp hentry).1
    exact ⟨_, hmem, congrArg some hname⟩
  · obtain ⟨hmem, hname⟩ := b.getElem?_types.mp (mem_inBoth.mp hentry).2
    exact ⟨_, hmem, congrArg some hname⟩

theorem renamed_spec {r : Renamed} (h : r ∈ (programDiff hashes debugStr a b).renamed) :
    (b.head hashes)[r.oldSigId]? = none ∧ ∃ stage ∈ b.stages, stage.declName = some r.toName := by
  simp only [programDiff, computeDiffWithTypes, mem_map] at h
  obtain ⟨pair, hpair, rfl⟩ := h
  obtain ⟨hgone, hfresh⟩ := mem_renamedPairs hpair
  obtain ⟨hfn, hnone⟩ := mem_onlyIn.mp hgone
  obtain ⟨-, hname⟩ := a.getElem?_fns.mp hfn
  obtain ⟨hmem', hname'⟩ := b.getElem?_fns.mp (mem_onlyIn.mp hfresh).1
  exact ⟨fn_gone rfl (hname ▸ hnone), _, hmem', congrArg some hname'⟩

theorem modified_spec {m : Modified} (h : m ∈ (programDiff hashes debugStr a b).modified) :
    (∃ stage ∈ a.stages, sigId hashes stage = some m.oldSigId ∧ stage.declName = some m.name) ∧
      ∃ stage ∈ b.stages, stage.declName = some m.name := by
  simp only [programDiff, computeDiffWithTypes, mem_append, mem_map, mem_filter,
    mem_filterMap] at h
  rcases h with ⟨⟨name, decl, decl'⟩, hentry, hmod⟩ | ⟨⟨name, decl, decl'⟩, ⟨hentry, -⟩, rfl⟩
  · obtain ⟨hfn, hfn'⟩ := mem_inBoth.mp hentry
    obtain ⟨hmem, hname⟩ := a.getElem?_fns.mp hfn
    obtain ⟨hmem', hname'⟩ := b.getElem?_fns.mp hfn'
    simp only [modifiedFn] at hmod
    split at hmod
    · cases hmod
    · obtain rfl := Option.some.inj hmod
      exact ⟨⟨_, hmem, rfl, congrArg some hname⟩, _, hmem', congrArg some hname'⟩
  · obtain ⟨hty, hty'⟩ := mem_inBoth.mp hentry
    obtain ⟨hmem, hname⟩ := a.getElem?_types.mp hty
    obtain ⟨hmem', hname'⟩ := b.getElem?_types.mp hty'
    exact ⟨⟨_, hmem, rfl, congrArg some hname⟩, _, hmem', congrArg some hname'⟩

variable (hashes debugStr)

theorem fn_modified_or_same {fa fb : FnDecl} (hmem : .fnDecl fa ∈ a.stages)
    (hmem' : .fnDecl fb ∈ b.stages) (hname : fa.name = fb.name) :
    (∃ m ∈ (programDiff hashes debugStr a b).modified, m.name = fa.name ∧
        sigId hashes (.fnDecl fa) = some m.oldSigId) ∨ Stage.content (.fnDecl fa) = Stage.content (.fnDecl fb) := by
  have hentry : (fa.name, fa, fb) ∈ inBoth a.fns b.fns :=
    mem_inBoth.mpr ⟨a.getElem?_fns.mpr ⟨hmem, rfl⟩, b.getElem?_fns.mpr ⟨hmem', hname.symm⟩⟩
  cases hmod : modifiedFn hashes debugStr (fa.name, fa, fb) with
  | some m =>
    refine .inl ⟨m, mem_append_left _ (mem_filterMap.mpr ⟨_, hentry, hmod⟩), ?_⟩
    simp only [modifiedFn] at hmod
    split at hmod
    · cases hmod
    · obtain rfl := Option.some.inj hmod
      exact ⟨rfl, rfl⟩
  | none =>
    simp only [modifiedFn] at hmod
    split at hmod
    · rename_i hsame
      have hcontent := content_eq_of_hash_eq hsame.1
      simp only [Stage.content, Stage.fnDecl.injEq, FnDecl.mk.injEq] at hcontent
      exact .inr (by simp only [Stage.content, hname, hcontent])
    · cases hmod

/-- A type of both programs is listed as modified, or as removed and added, or is the same in
both. -/
theorem type_listed_or_same {ta tb : TypeDecl} (hmem : .typeDecl ta ∈ a.stages)
    (hmem' : .typeDecl tb ∈ b.stages) (hname : ta.name = tb.name) :
    (∃ m ∈ (programDiff hashes debugStr a b).modified, m.name = ta.name ∧
        sigId hashes (.typeDecl ta) = some m.oldSigId) ∨ ((∃ r ∈ (programDiff hashes debugStr a b).removed,
          r.oldSigId = sigId hashes (.typeDecl ta)) ∧
        ∃ r ∈ (programDiff hashes debugStr a b).added, r.name = ta.name) ∨
      Stage.content (.typeDecl ta) = Stage.content (.typeDecl tb) := by
  have hentry : (ta.name, ta, tb) ∈ inBoth a.types b.types :=
    mem_inBoth.mpr ⟨a.getElem?_types.mpr ⟨hmem, rfl⟩, b.getElem?_types.mpr ⟨hmem', hname.symm⟩⟩
  by_cases hchanged : typeChanged hashes (ta.name, ta, tb) = true
  · by_cases hmoved : typeMoved hashes (ta.name, ta, tb) = true
    · have hin := mem_filter.mpr ⟨hentry, hmoved⟩
      exact .inr (.inl ⟨⟨_, mem_append_right _ (mem_map_of_mem hin), rfl⟩,
        ⟨_, mem_append_right _ (mem_map_of_mem hin), rfl⟩⟩)
    · have hin : (ta.name, ta, tb) ∈ (inBoth a.types b.types).filter fun entry =>
          typeChanged hashes entry && !typeMoved hashes entry :=
        mem_filter.mpr ⟨hentry, by simp [hchanged, hmoved]⟩
      exact .inl ⟨_, mem_append_right _ (mem_map_of_mem hin), rfl, rfl⟩
  · rw [typeChanged, Bool.not_eq_true, bne_eq_false_iff_eq] at hchanged
    exact .inr (.inr (content_eq_of_hash_eq hchanged))

theorem fn_gone_listed (hmem : .fnDecl decl ∈ a.stages) (hnone : b.fns[decl.name]? = none) :
    (∃ r ∈ (programDiff hashes debugStr a b).removed, r.oldSigId = sigId hashes (.fnDecl decl)) ∨
      ∃ r ∈ (programDiff hashes debugStr a b).renamed, sigId hashes (.fnDecl decl) = some r.oldSigId := by
  have hentry : (decl.name, decl) ∈ onlyIn a.fns b.fns :=
    mem_onlyIn.mpr ⟨a.getElem?_fns.mpr ⟨hmem, rfl⟩, hnone⟩
  let pairs := renamedPairs hashes (onlyIn b.fns a.fns) (onlyIn a.fns b.fns) []
  by_cases hconsumed : decl.name ∈ pairs.map fun pair => pair.1.1
  · obtain ⟨pair, hpair, hname⟩ := mem_map.mp hconsumed
    have hfn := (mem_onlyIn.mp (mem_renamedPairs hpair).1).1
    rw [hname, (mem_onlyIn.mp hentry).1] at hfn
    refine .inr ⟨_, mem_map_of_mem hpair, ?_⟩
    have hdecl : decl = pair.1.2 := Option.some.inj hfn
    rw [hdecl]
    rfl
  · refine .inl ⟨_, mem_append_left _ (mem_append_left _ (mem_map_of_mem
      (mem_filter.mpr ⟨hentry, decide_eq_true hconsumed⟩))), rfl⟩

theorem fn_new_listed (hmem : .fnDecl decl ∈ b.stages) (hnone : a.fns[decl.name]? = none) :
    (∃ r ∈ (programDiff hashes debugStr a b).added, r.name = decl.name) ∨
      ∃ r ∈ (programDiff hashes debugStr a b).renamed, r.toName = decl.name := by
  have hentry : (decl.name, decl) ∈ onlyIn b.fns a.fns :=
    mem_onlyIn.mpr ⟨b.getElem?_fns.mpr ⟨hmem, rfl⟩, hnone⟩
  let pairs := renamedPairs hashes (onlyIn b.fns a.fns) (onlyIn a.fns b.fns) []
  by_cases hconsumed : decl.name ∈ pairs.map fun pair => pair.2.1
  · obtain ⟨pair, hpair, hname⟩ := mem_map.mp hconsumed
    exact .inr ⟨_, mem_map_of_mem hpair, hname⟩
  · exact .inl ⟨_, mem_append_left _ (mem_append_left _ (mem_map_of_mem
      (mem_filter.mpr ⟨hentry, decide_eq_true hconsumed⟩))), rfl⟩

/-- **Nothing old is overlooked**: each old sig is removed, renamed or modified, or its declaration
is in the new program as it was. -/
theorem old_listed (hmem : stage ∈ a.stages) (hsig : sigId hashes stage = some sig) :
    (∃ r ∈ (programDiff hashes debugStr a b).removed, r.oldSigId = some sig) ∨
      (∃ r ∈ (programDiff hashes debugStr a b).renamed, r.oldSigId = sig) ∨
      (∃ m ∈ (programDiff hashes debugStr a b).modified, m.oldSigId = sig) ∨
      ∃ stage' ∈ b.stages, stage.content = stage'.content := by
  cases stage with
  | fnDecl fa =>
    cases hfb : b.fns[fa.name]? with
    | none =>
      rcases fn_gone_listed hashes debugStr hmem hfb with
        ⟨r, hr, hold⟩ | ⟨r, hr, hold⟩
      · exact .inl ⟨r, hr, hold.trans hsig⟩
      · exact .inr (.inl ⟨r, hr, Option.some.inj (hold.symm.trans hsig)⟩)
    | some fb =>
      obtain ⟨hmem', hname⟩ := b.getElem?_fns.mp hfb
      rcases fn_modified_or_same hashes debugStr hmem hmem'
        hname.symm with ⟨m, hm, -, hold⟩ | hsame
      · exact .inr (.inr (.inl ⟨m, hm, Option.some.inj (hold.symm.trans hsig)⟩))
      · exact .inr (.inr (.inr ⟨_, hmem', hsame⟩))
  | typeDecl ta =>
    cases htb : b.types[ta.name]? with
    | none =>
      have hentry : (ta.name, ta) ∈ onlyIn a.types b.types :=
        mem_onlyIn.mpr ⟨a.getElem?_types.mpr ⟨hmem, rfl⟩, htb⟩
      exact .inl ⟨_, mem_append_left _ (mem_append_right _
        (mem_map_of_mem hentry)), hsig⟩
    | some tb =>
      obtain ⟨hmem', hname⟩ := b.getElem?_types.mp htb
      rcases type_listed_or_same hashes debugStr hmem hmem'
        hname.symm with ⟨m, hm, -, hold⟩ | ⟨⟨r, hr, hold⟩, -⟩ | hsame
      · exact .inr (.inr (.inl ⟨m, hm, Option.some.inj (hold.symm.trans hsig)⟩))
      · exact .inl ⟨r, hr, hold.trans hsig⟩
      · exact .inr (.inr (.inr ⟨_, hmem', hsame⟩))
  | importDecl => cases hsig

/-- **Nothing new is overlooked**: each new name is added, renamed to or modified, or its declaration
is as it was in the old program. -/
theorem new_listed (hmem : stage ∈ b.stages) (hname : stage.declName = some name) :
    (∃ r ∈ (programDiff hashes debugStr a b).added, r.name = name) ∨
      (∃ r ∈ (programDiff hashes debugStr a b).renamed, r.toName = name) ∨
      (∃ m ∈ (programDiff hashes debugStr a b).modified, m.name = name) ∨
      ∃ stage' ∈ a.stages, stage'.content = stage.content := by
  cases stage with
  | fnDecl fb =>
    obtain rfl := Option.some.inj hname
    cases hfa : a.fns[fb.name]? with
    | none =>
      rcases fn_new_listed hashes debugStr hmem hfa with h | h
      · exact .inl h
      · exact .inr (.inl h)
    | some fa =>
      obtain ⟨hmem', hname'⟩ := a.getElem?_fns.mp hfa
      rcases fn_modified_or_same hashes debugStr hmem' hmem
        hname' with ⟨m, hm, hold, -⟩ | hsame
      · exact .inr (.inr (.inl ⟨m, hm, hold.trans hname'⟩))
      · exact .inr (.inr (.inr ⟨_, hmem', hsame⟩))
  | typeDecl tb =>
    obtain rfl := Option.some.inj hname
    cases hta : a.types[tb.name]? with
    | none =>
      have hentry : (tb.name, tb) ∈ onlyIn b.types a.types :=
        mem_onlyIn.mpr ⟨b.getElem?_types.mpr ⟨hmem, rfl⟩, hta⟩
      exact .inl ⟨_, mem_append_left _ (mem_append_right _
        (mem_map_of_mem hentry)), rfl⟩
    | some ta =>
      obtain ⟨hmem', hname'⟩ := a.getElem?_types.mp hta
      rcases type_listed_or_same hashes debugStr hmem' hmem
        hname' with ⟨m, hm, hold, -⟩ | ⟨-, r, hr, hold⟩ | hsame
      · exact .inr (.inr (.inl ⟨m, hm, hold.trans hname'⟩))
      · exact .inl ⟨r, hr, hold.trans hname'⟩
      · exact .inr (.inr (.inr ⟨_, hmem', hsame⟩))
  | importDecl => cases hname

/-! ## The round trip -/

variable {hashes debugStr}

theorem mapM_ok {α β ε : Type} {f : α → Except ε β} :
    ∀ {l : List α}, (∀ x ∈ l, ∃ y, f x = .ok y) →
      ∃ ys, l.mapM f = .ok ys ∧ ∀ y, y ∈ ys ↔ ∃ x ∈ l, f x = .ok y
  | [], _ => ⟨[], rfl, by simp⟩
  | x :: l, h => by
    obtain ⟨y, hy⟩ := h x mem_cons_self
    obtain ⟨ys, hys, hmem⟩ := mapM_ok fun x' hx' => h x' (mem_cons_of_mem x hx')
    refine ⟨y :: ys, ?_, ?_⟩
    · rw [mapM_cons, hy, hys]
      rfl
    · intro y'
      simp only [mem_cons, hmem, or_and_right, exists_or, exists_eq_left, hy, Except.ok.injEq, @eq_comm _ y']

theorem importOps_transition (h : kind ∈ importOps oldImports newImports) : transitionForKind kind = .importOnly := by
  simp only [importOps, mem_append, mem_flatMap, mem_map] at h
  rcases h with ⟨entry, -, ⟨m, -, rfl⟩ | ⟨m, -, rfl⟩⟩ | ⟨entry, -, h⟩
  · rfl
  · rfl
  · split at h
    · cases h
    · obtain ⟨m, -, rfl⟩ := mem_map.mp h
      rfl

theorem maps_of_removed (h : r ∈ (programDiff hashes debugStr a b).removed) (hold : inputs.oldHead = a.head hashes) :
    ∃ sig, r.oldSigId = some sig ∧ Maps (b.head hashes) (removedOp inputs r) [sig] := by
  obtain ⟨stage, hmem, sig, hsig, hr, hgone⟩ := removed_spec h
  exact ⟨sig, hr, removedOp_maps hold hmem hsig hgone hr⟩

theorem maps_of_added (h : r ∈ (programDiff hashes debugStr a b).added) (hnew : inputs.newStages = b.stages) :
    ∃ stage ∈ b.stages, stage.declName = some r.name ∧ ∃ sig, sigId hashes stage = some sig ∧
      Maps (b.head hashes) (addedOp hashes debugStr inputs r) [sig] := by
  obtain ⟨stage, hmem, hname⟩ := added_spec h
  obtain ⟨sig, _, hsig, _⟩ := headEntry_eq_some hashes hname
  exact ⟨stage, hmem, hname, sig, hsig, addedOp_maps hnew hmem hname hsig⟩

theorem maps_of_renamed {r : Renamed} (h : r ∈ (programDiff hashes debugStr a b).renamed)
    (hnew : inputs.newStages = b.stages) :
    ∃ stage ∈ b.stages, stage.declName = some r.toName ∧ ∃ sig, sigId hashes stage = some sig ∧
      Maps (b.head hashes) (renamedOp hashes inputs r) [r.oldSigId, sig] := by
  obtain ⟨hgone, stage, hmem, hname⟩ := renamed_spec h
  obtain ⟨sig, _, hsig, _⟩ := headEntry_eq_some hashes hname
  exact ⟨stage, hmem, hname, sig, hsig, renamedOp_maps hnew hgone hmem hname hsig⟩

theorem maps_of_modified {m : Modified} (h : m ∈ (programDiff hashes debugStr a b).modified)
    (hold : inputs.oldHead = a.head hashes) (hnew : inputs.newStages = b.stages) :
    ∃ stage ∈ b.stages, stage.declName = some m.name ∧ ∃ sig, sigId hashes stage = some sig ∧
      Maps (b.head hashes) (modifiedOp hashes debugStr inputs m) [m.oldSigId, sig] := by
  obtain ⟨⟨stage, hmem, hsig, hname⟩, stage', hmem', hname'⟩ := modified_spec h
  obtain ⟨sig', _, hsig', _⟩ := headEntry_eq_some hashes hname'
  exact ⟨stage', hmem', hname', sig', hsig',
    modifiedOp_maps hold hnew hmem hsig hname hmem' hname' hsig'⟩

end Report

/-- Where an operation comes from: an import, or the entry it maps. -/
def FromEntries (hashes : Hashes) (debugStr : String → String) (inputs : DiffInputs)
    (kind : OperationKind) : Prop :=
  kind ∈ importOps inputs.oldImports inputs.newImports ∨
    (∃ r ∈ inputs.diff.removed, removedOp inputs r = .ok kind) ∨
    (∃ r ∈ inputs.diff.added, addedOp hashes debugStr inputs r = .ok kind) ∨
    (∃ r ∈ inputs.diff.renamed, renamedOp hashes inputs r = .ok kind) ∨
    ∃ m ∈ inputs.diff.modified, modifiedOp hashes debugStr inputs m = .ok kind

/-- **The mapping succeeds**, with the import operations and those of the entries. -/
theorem diffToOps_spec (hold : inputs.oldHead = a.head hashes) (hnew : inputs.newStages = b.stages)
    (hdiff : inputs.diff = programDiff hashes debugStr a b) : ∃ ops, diffToOps hashes debugStr inputs = .ok ops ∧
      ∀ kind, kind ∈ ops ↔ FromEntries hashes debugStr inputs kind := by
  obtain ⟨removed, hremoved, hinRemoved⟩ :
      ∃ ys, inputs.diff.removed.mapM (removedOp inputs) = .ok ys ∧ _ := mapM_ok fun r hr => by
    obtain ⟨_, -, kind, hkind, -⟩ := maps_of_removed (hdiff ▸ hr) hold
    exact ⟨kind, hkind⟩
  obtain ⟨added, hadded, hinAdded⟩ :
      ∃ ys, inputs.diff.added.mapM (addedOp hashes debugStr inputs) = .ok ys ∧ _ :=
      mapM_ok fun r hr => by
    obtain ⟨_, -, -, _, -, kind, hkind, -⟩ := maps_of_added (hdiff ▸ hr) hnew
    exact ⟨kind, hkind⟩
  obtain ⟨renamed, hrenamed, hinRenamed⟩ :
      ∃ ys, inputs.diff.renamed.mapM (renamedOp hashes inputs) = .ok ys ∧ _ :=
      mapM_ok fun r hr => by
    obtain ⟨_, -, -, _, -, kind, hkind, -⟩ := maps_of_renamed (hdiff ▸ hr) hnew
    exact ⟨kind, hkind⟩
  obtain ⟨modified, hmodified, hinModified⟩ :
      ∃ ys, inputs.diff.modified.mapM (modifiedOp hashes debugStr inputs) = .ok ys ∧ _ :=
      mapM_ok fun m hm => by
    obtain ⟨_, -, -, _, -, kind, hkind, -⟩ := maps_of_modified (hdiff ▸ hm) hold hnew
    exact ⟨kind, hkind⟩
  refine ⟨importOps inputs.oldImports inputs.newImports ++ removed ++ added ++ renamed ++ modified,
    ?_, fun kind => ?_⟩
  · unfold diffToOps
    simp only [hremoved, hadded, hrenamed, hmodified]
  · simp only [FromEntries, mem_append, hinRemoved, hinAdded, hinRenamed, hinModified, or_assoc]

theorem towards_of_fromEntries (hold : inputs.oldHead = a.head hashes)
    (hnew : inputs.newStages = b.stages) (hdiff : inputs.diff = programDiff hashes debugStr a b)
    (hkind : FromEntries hashes debugStr inputs kind) : Towards (b.head hashes) (transitionForKind kind) := by
  rcases hkind with h | ⟨r, hr, hok⟩ | ⟨r, hr, hok⟩ | ⟨r, hr, hok⟩ | ⟨m, hm, hok⟩
  · rw [importOps_transition h]
    intro sig w hw
    cases hw
  · obtain ⟨_, -, hmaps⟩ := maps_of_removed (hdiff ▸ hr) hold
    exact (hok ▸ hmaps).of_ok.1
  · obtain ⟨_, -, -, _, -, hmaps⟩ := maps_of_added (hdiff ▸ hr) hnew
    exact (hok ▸ hmaps).of_ok.1
  · obtain ⟨_, -, -, _, -, hmaps⟩ := maps_of_renamed (hdiff ▸ hr) hnew
    exact (hok ▸ hmaps).of_ok.1
  · obtain ⟨_, -, -, _, -, hmaps⟩ := maps_of_modified (hdiff ▸ hm) hold hnew
    exact (hok ▸ hmaps).of_ok.1

/-- Some operation of the mapping writes the sig. -/
def Written (hashes : Hashes) (debugStr : String → String) (inputs : DiffInputs) (sig : SigId) :
    Prop :=
  ∃ kind, FromEntries hashes debugStr inputs kind ∧ ((transitionForKind kind).writes sig).isSome

variable (hold : inputs.oldHead = a.head hashes)
include hold

variable (hnew : inputs.newStages = b.stages)
include hnew

variable (hdiff : inputs.diff = programDiff hashes debugStr a b)
include hdiff

theorem written_of_old {stage : Stage} {sig : SigId}
    (hmem : stage ∈ a.stages) (hsig : sigId hashes stage = some sig) :
    Written hashes debugStr inputs sig ∨ ∃ stage' ∈ b.stages, stage.content = stage'.content := by
  rcases old_listed hashes debugStr hmem hsig with
    ⟨r, hr, hrs⟩ | ⟨r, hr, rfl⟩ | ⟨m, hm, rfl⟩ | h
  · obtain ⟨sig', hsig', kind, hok, -, hwrites⟩ := maps_of_removed hr hold
    obtain rfl := Option.some.inj (hrs.symm.trans hsig')
    exact .inl ⟨kind, .inr (.inl ⟨r, hdiff ▸ hr, hok⟩), hwrites sig mem_cons_self⟩
  · obtain ⟨_, -, -, _, -, kind, hok, -, hwrites⟩ := maps_of_renamed hr hnew
    exact .inl ⟨kind, .inr (.inr (.inr (.inl ⟨r, hdiff ▸ hr, hok⟩))),
      hwrites _ mem_cons_self⟩
  · obtain ⟨_, -, -, _, -, kind, hok, -, hwrites⟩ := maps_of_modified hm hold hnew
    exact .inl ⟨kind, .inr (.inr (.inr (.inr ⟨m, hdiff ▸ hm, hok⟩))),
      hwrites _ mem_cons_self⟩
  · exact .inr h

theorem written_of_new {stage : Stage} {sig : SigId}
    (hmem : stage ∈ b.stages) (hsig : sigId hashes stage = some sig) :
    Written hashes debugStr inputs sig ∨ ∃ stage' ∈ a.stages, stage'.content = stage.content := by
  obtain ⟨name, hname⟩ := declName_of_sigId hsig
  -- the entry's new declaration is the one of that name
  have hsame : ∀ {stage' sig'}, stage' ∈ b.stages → stage'.declName = some name →
      sigId hashes stage' = some sig' → sig' = sig := by
    intro stage' sig' hmem' hname' hsig'
    obtain rfl := b.eq_of_declName_eq hmem hmem' hname hname'
    exact Option.some.inj (hsig'.symm.trans hsig)
  rcases new_listed hashes debugStr hmem hname with
    ⟨r, hr, rfl⟩ | ⟨r, hr, rfl⟩ | ⟨m, hm, rfl⟩ | h
  · obtain ⟨stage', hmem', hname', sig', hsig', kind, hok, -, hwrites⟩ := maps_of_added hr hnew
    obtain rfl := hsame hmem' hname' hsig'
    exact .inl ⟨kind, .inr (.inr (.inl ⟨r, hdiff ▸ hr, hok⟩)), hwrites _ mem_cons_self⟩
  · obtain ⟨stage', hmem', hname', sig', hsig', kind, hok, -, hwrites⟩ := maps_of_renamed hr hnew
    obtain rfl := hsame hmem' hname' hsig'
    exact .inl ⟨kind, .inr (.inr (.inr (.inl ⟨r, hdiff ▸ hr, hok⟩))),
      hwrites _ (mem_cons_of_mem _ mem_cons_self)⟩
  · obtain ⟨stage', hmem', hname', sig', hsig', kind, hok, -, hwrites⟩ :=
      maps_of_modified hm hold hnew
    obtain rfl := hsame hmem' hname' hsig'
    exact .inl ⟨kind, .inr (.inr (.inr (.inr ⟨m, hdiff ▸ hm, hok⟩))),
      hwrites _ (mem_cons_of_mem _ mem_cons_self)⟩
  · exact .inr h

omit hold hnew hdiff in
theorem head_eq_of_content_eq (hmem : stage ∈ a.stages)
    (hmem' : stage' ∈ b.stages) (hsig : sigId hashes stage = some sig)
    (h : stage.content = stage'.content) : (a.head hashes)[sig]? = (b.head hashes)[sig]? := by
  obtain ⟨name, hname⟩ := declName_of_sigId hsig
  obtain ⟨_, stg, _, hstg⟩ := headEntry_eq_some hashes hname
  obtain ⟨hsigs, hstgs⟩ : sigId hashes stage = sigId hashes stage' ∧
    stageId hashes stage = stageId hashes stage' := ids_eq_of_content_eq h
  rw [a.getElem?_head.mpr ⟨stage, hmem, hsig, hstg⟩, b.getElem?_head.mpr ⟨stage', hmem', hsigs ▸ hsig, hstgs ▸ hstg⟩]

/-- **Nothing is left stale or missing**: where the two heads differ, an operation writes. -/
theorem head_eq_or_written (sig : SigId) :
    (a.head hashes)[sig]? = (b.head hashes)[sig]? ∨ Written hashes debugStr inputs sig := by
  cases hb : (b.head hashes)[sig]? with
  | some stg =>
    obtain ⟨stage, hmem, hsig, hstg⟩ := b.getElem?_head.mp hb
    rcases written_of_new hold hnew hdiff hmem hsig with h | ⟨stage', hmem', hcontent⟩
    · exact .inr h
    · have hsig' : sigId hashes stage' = some sig := (ids_eq_of_content_eq hcontent).1.trans hsig
      exact .inl (hb ▸ head_eq_of_content_eq hmem' hmem hsig' hcontent)
  | none =>
    cases ha : (a.head hashes)[sig]? with
    | none => exact .inl rfl
    | some stg =>
      obtain ⟨stage, hmem, hsig, hstg⟩ := a.getElem?_head.mp ha
      rcases written_of_old hold hnew hdiff hmem hsig with h | ⟨stage', hmem', hcontent⟩
      · exact .inr h
      · rw [← ha, ← hb]
        exact .inl (head_eq_of_content_eq hmem hmem' hsig hcontent)

/-- The mapping of a diff succeeds, and its operations take the one head to the other. -/
theorem diffToOps_reaches : ∃ ops, diffToOps hashes debugStr inputs = .ok ops ∧
      (∀ kind, kind ∈ ops ↔ FromEntries hashes debugStr inputs kind) ∧
      (ops.map transitionForKind).foldl applyTransition (a.head hashes) = b.head hashes := by
  obtain ⟨ops, hops, hmem⟩ := diffToOps_spec hold hnew hdiff
  refine ⟨ops, hops, hmem,
    Std.ExtTreeMap.ext_getElem? fun sig => getElem?_foldl_applyTransition ?_ ?_⟩
  · intro t ht
    obtain ⟨kind, hkind, rfl⟩ := mem_map.mp ht
    exact towards_of_fromEntries hold hnew hdiff ((hmem kind).mp hkind) sig
  · rcases head_eq_or_written hold hnew hdiff sig with h | ⟨kind, hkind, hwrites⟩
    · exact .inl h
    · exact .inr ⟨_, mem_map_of_mem ((hmem kind).mpr hkind), hwrites⟩

omit hdiff

omit hnew

omit hold

/-- **Publishing is exact**: for any two programs the diff of one against the other maps to
operations whose transitions, in order, take the head of the first to the head of the second. -/
theorem publish_roundTrip (hashes : Hashes) (debugStr : String → String) (a b : Program)
    (oldEffects : Std.ExtTreeMap SigId EffectSet) (oldImports newImports : ImportMap)
    (modulePrefixes : Std.ExtTreeMap String String) : ∃ ops, diffToOps hashes debugStr
        (publishInputs hashes debugStr a b oldEffects oldImports newImports modulePrefixes) = .ok ops ∧
      (ops.map transitionForKind).foldl applyTransition (a.head hashes) = b.head hashes := by
  obtain ⟨ops, hops, -, hreaches⟩ := @diffToOps_reaches hashes debugStr a b
    (publishInputs hashes debugStr a b oldEffects oldImports newImports modulePrefixes) rfl rfl rfl
  exact ⟨ops, hops, hreaches⟩

end RoundTrip

end LexLang.Vcs
