/-
# LexLang.Vcs.EffectEntries — the entries of a diff, and the sigs their operations touch

Each function of the two programs of a publish is in one entry of the diff at most: it is removed,
added, on a side of a renaming, or changed. So the operations of one publish touch different sigs
(`diffOps_apart`), and each can be looked at alone (`Footprint.foldl_eq_step`).
-/
import LexLang.Vcs.EffectRecord
import LexLang.Vcs.ImportReplay

namespace LexLang.Vcs

open LexLang.Ast LexLang.Transition
open List Option

/-! ## The names an entry of the diff is about -/

/-- The sig of a function. -/
def fnSig (hashes : Hashes) (decl : FnDecl) : SigId := (sigId hashes (.fnDecl decl)).getD ""

/-- A sig a function of the name has. -/
def IsSigOf (hashes : Hashes) (name : String) (sig : SigId) : Prop :=
  ∃ decl : FnDecl, decl.name = name ∧ fnSig hashes decl = sig

variable {hashes : Hashes}

theorem IsSigOf.name_eq {name name' : String} {sig : SigId}
    (h : IsSigOf hashes name sig) (h' : IsSigOf hashes name' sig) : name = name' := by
  obtain ⟨decl, rfl, hsig⟩ := h
  obtain ⟨decl', rfl, hsig'⟩ := h'
  have hkey := @key_eq_of_sigId_eq hashes (.fnDecl decl) (.fnDecl decl') sig
    (congrArg some hsig) (congrArg some hsig')
  simpa [Stage.key] using hkey

/-- The function an entry of the diff is about, none when it is about a type. -/
def entryNames (signature name : String) : List String :=
  if signature.startsWith "type " then [] else [name]

theorem startsWith_renderTypeSignature (decl : TypeDecl) : (renderTypeSignature decl).startsWith "type " = true := by
  rw [String.startsWith_string_iff]
  simp only [renderTypeSignature, String.toList_append]
  exact prefix_append _ _

theorem entryNames_type (decl : TypeDecl) (name : String) : entryNames (renderTypeSignature decl) name = [] := by
  rw [entryNames, if_pos (startsWith_renderTypeSignature decl)]

theorem entryNames_fn (debugStr : String → String) (decl : FnDecl) (name : String) :
    entryNames (renderSignature debugStr decl) name = [name] := by
  unfold entryNames
  rw [if_neg]
  rw [String.startsWith_string_iff]
  rintro ⟨rest, h⟩
  have htype : "type ".toList = ['t', 'y', 'p', 'e', ' '] := by decide +kernel
  have hfn : "fn ".toList = ['f', 'n', ' '] := by decide +kernel
  simp only [renderSignature, String.toList_append] at h
  cases h

/-- An operation touches sigs of the named functions only. -/
def AboutNames (hashes : Hashes) (names : List String) (kind : OperationKind) : Prop :=
  ∀ sig ∈ kind.touches, ∃ name ∈ names, IsSigOf hashes name sig

theorem AboutNames.nil {kind : OperationKind} {names : List String}
    (h : kind.touches = []) : AboutNames hashes names kind := by
  intro sig hsig
  rw [h] at hsig
  cases hsig

theorem AboutNames.disjoint {names names' : List String}
    {kind kind' : OperationKind} (h : AboutNames hashes names kind)
    (h' : AboutNames hashes names' kind') (hnames : names.Disjoint names') :
    ∀ sig ∈ kind.touches, sig ∉ kind'.touches := by
  intro sig hsig hsig'
  obtain ⟨name, hname, hof⟩ := h sig hsig
  obtain ⟨name', hname', hof'⟩ := h' sig hsig'
  exact hnames hname (hof.name_eq hof' ▸ hname')

theorem apart_of_mapM {α : Type} {f : α → Except DiffMappingError OperationKind}
    {names : α → List String} : ∀ {entries : List α} {kinds : List OperationKind},
    entries.mapM f = .ok kinds →
    entries.Pairwise (fun x y => (names x).Disjoint (names y)) →
    (∀ x ∈ entries, ∀ kind, f x = .ok kind → AboutNames hashes (names x) kind) →
    Apart OperationKind.touches kinds
  | [], kinds, h, _, _ => by
    cases h
    exact List.Pairwise.nil
  | x :: entries, kinds, h, hnames, habout => by
    rw [mapM_cons] at h
    cases hx : f x with
    | error e =>
      rw [hx] at h
      cases h
    | ok kind =>
      cases hrest : entries.mapM f with
      | error e =>
        rw [hx, hrest] at h
        cases h
      | ok rest =>
        rw [hx, hrest] at h
        cases h
        rw [pairwise_cons] at hnames
        refine List.Pairwise.cons (fun kind' hkind' => ?_)
          (apart_of_mapM hrest hnames.2 fun y hy => habout y (mem_cons_of_mem x hy))
        obtain ⟨y, hy, hfy⟩ := of_mem_mapM hrest kind' hkind'
        exact (habout x mem_cons_self kind hx).disjoint
          (habout y (mem_cons_of_mem x hy) kind' hfy) (hnames.1 y hy)

/-! ## The operation of each entry -/

section Entries

variable (hashes : Hashes) (debugStr : String → String) {a b : Program} {inputs : DiffInputs}

variable {r : AddRemove}

theorem removedOp_eq {kind : OperationKind} (h : removedOp inputs r = .ok kind) :
    ∃ sig last, r.oldSigId = some sig ∧
      kind = if r.signature.startsWith "type " then .removeType sig last
        else .removeFunction sig last := by
  unfold removedOp at h
  cases hsig : r.oldSigId with
  | none =>
    rw [hsig] at h
    cases h
  | some sig =>
    rw [hsig] at h
    cases hlast : inputs.oldHead[sig]? with
    | none =>
      simp only [hlast] at h
      cases h
    | some last =>
      simp only [hlast] at h
      refine ⟨sig, last, rfl, ?_⟩
      split at h
      · next htype =>
        rw [if_pos htype]
        exact (Except.ok.inj h).symm
      · next htype =>
        rw [if_neg htype]
        exact (Except.ok.inj h).symm

theorem addedOp_fn (hnew : inputs.newStages = b.stages) {decl : FnDecl}
    (hmem : .fnDecl decl ∈ b.stages) (hname : decl.name = r.name) : ∃ stg inFile, addedOp hashes debugStr inputs r =
      .ok (.addFunction (fnSig hashes decl) stg (effectSet debugStr decl.effects)
        (budgetFromEffects (effectSet debugStr decl.effects)) inFile) := by
  obtain ⟨sig, stg, hfor, hsig, -, -⟩ := newStageFor_spec hnew hmem (congrArg some hname)
  obtain rfl : fnSig hashes decl = sig := some.inj hsig
  exact ⟨stg, _, by simp only [addedOp, hfor]; rfl⟩

theorem addedOp_type (hnew : inputs.newStages = b.stages) {decl : TypeDecl}
    (hmem : .typeDecl decl ∈ b.stages) (hname : decl.name = r.name) :
    ∃ sig stg inFile, addedOp hashes debugStr inputs r = .ok (.addType sig stg inFile) := by
  obtain ⟨sig, stg, hfor, -⟩ : ∃ sig stg, newStageFor hashes inputs r.name = .ok (.typeDecl decl, sig, stg) ∧ _ :=
    newStageFor_spec hnew hmem (congrArg some hname)
  exact ⟨sig, stg, _, by simp only [addedOp, hfor]; rfl⟩

theorem renamedOp_fn (hnew : inputs.newStages = b.stages) {decl : FnDecl} {r : Renamed}
    (hmem : .fnDecl decl ∈ b.stages) (hname : decl.name = r.toName) : ∃ stg inFile, renamedOp hashes inputs r =
      .ok (.renameSymbol r.oldSigId (fnSig hashes decl) stg inFile) := by
  obtain ⟨sig, stg, hfor, hsig, -, -⟩ := newStageFor_spec hnew hmem (congrArg some hname)
  obtain rfl : fnSig hashes decl = sig := some.inj hsig
  exact ⟨stg, _, by simp only [renamedOp, hfor]; rfl⟩

/-- Whether an entry lists a change of effects. -/
def effectsChanged (m : Modified) : Bool :=
  !m.effectChanges.added.isEmpty || !m.effectChanges.removed.isEmpty

/-- What a change of a function maps to: the effects before are those read from the old stage. -/
theorem modifiedOp_fn (hold : inputs.oldHead = a.head hashes) (hnew : inputs.newStages = b.stages)
    {fa fb : FnDecl} {m : Modified} (hfa : .fnDecl fa ∈ a.stages) (hfb : .fnDecl fb ∈ b.stages)
    (hsig : m.oldSigId = fnSig hashes fa) (hname : fb.name = m.name) :
    ∃ fromId toId toSig, toSig.getD (fnSig hashes fa) = fnSig hashes fb ∧
      modifiedOp hashes debugStr inputs m = .ok
        (if effectsChanged m then
          .changeEffectSig (fnSig hashes fa) fromId toId
            (inputs.oldEffects[fnSig hashes fa]?.getD ∅) (effectSet debugStr fb.effects)
            (budgetFromEffects (inputs.oldEffects[fnSig hashes fa]?.getD ∅))
            (budgetFromEffects (effectSet debugStr fb.effects)) toSig
        else .modifyBody (fnSig hashes fa) fromId toId
          (budgetFromEffects (effectSet debugStr fb.effects))
          (budgetFromEffects (effectSet debugStr fb.effects)) toSig) := by
  obtain ⟨_, fromId, _, hfrom⟩ := headEntry_eq_some hashes (show (Stage.fnDecl fa).declName = _ from rfl)
  obtain ⟨_, toId, _, hto⟩ := headEntry_eq_some hashes (show (Stage.fnDecl fb).declName = _ from rfl)
  have hlast : inputs.oldHead[fnSig hashes fa]? = some fromId := by
    rw [hold]
    exact a.getElem?_head.mpr ⟨.fnDecl fa, hfa, rfl, hfrom⟩
  have hstage : (newByName inputs.newStages)[m.name]? = some (.fnDecl fb) := by
    rw [hnew]
    exact b.getElem?_newByName.mpr ⟨hfb, congrArg some hname⟩
  refine ⟨fromId, toId, (some (fnSig hashes fb)).filter fun s => decide (s ≠ fnSig hashes fa),
    ?_, ?_⟩
  · by_cases hsame : fnSig hashes fb = fnSig hashes fa
    · simp only [hsame, ne_eq, not_true_eq_false, decide_false, filter_some,
        Bool.false_eq_true, if_false, getD_none]
    · simp only [hsame, ne_eq, not_false_eq_true, decide_true, filter_some, if_true, getD_some]
  · have hchanged : (!m.effectChanges.added.isEmpty || !m.effectChanges.removed.isEmpty) =
        effectsChanged m := rfl
    simp only [modifiedOp, hsig, hlast, hstage, hto, hchanged]
    split
    · rfl
    · rfl

theorem modifiedOp_type (hold : inputs.oldHead = a.head hashes)
    (hnew : inputs.newStages = b.stages) {ta tb : TypeDecl} {m : Modified}
    (hta : .typeDecl ta ∈ a.stages) (htb : .typeDecl tb ∈ b.stages)
    (hsig : sigId hashes (.typeDecl ta) = some m.oldSigId) (hname : tb.name = m.name) :
    ∃ fromId toId toSig, modifiedOp hashes debugStr inputs m = .ok (.modifyType m.oldSigId fromId toId toSig) := by
  obtain ⟨_, fromId, _, hfrom⟩ := headEntry_eq_some hashes (show (Stage.typeDecl ta).declName = _ from rfl)
  obtain ⟨_, toId, _, hto⟩ := headEntry_eq_some hashes (show (Stage.typeDecl tb).declName = _ from rfl)
  have hlast : inputs.oldHead[m.oldSigId]? = some fromId := by
    rw [hold]
    exact a.getElem?_head.mpr ⟨.typeDecl ta, hta, hsig, hfrom⟩
  have hstage : (newByName inputs.newStages)[m.name]? = some (.typeDecl tb) := by
    rw [hnew]
    exact b.getElem?_newByName.mpr ⟨htb, congrArg some hname⟩
  exact ⟨fromId, toId, _, by simp only [modifiedOp, hlast, hstage, hto]; rfl⟩

end Entries

/-! ## One publish -/

section Publish

variable (hashes : Hashes) (debugStr : String → String)

/-- The functions of a program that another one of the same name replaces. -/
def PairedFns (a b : Program) (fa fb : FnDecl) : Prop :=
  .fnDecl fa ∈ a.stages ∧ .fnDecl fb ∈ b.stages ∧ fa.name = fb.name

variable {hashes debugStr} {a b : Program}

theorem pairs_fst_sublist {onlyB : List (String × FnDecl)} :
    ∀ (onlyA : List (String × FnDecl)) (consumed : List String),
      ((renamedPairs hashes onlyB onlyA consumed).map fun pair => pair.1.1).Sublist
        (onlyA.map Prod.fst)
  | [], _ => List.Sublist.slnil
  | gone :: onlyA, consumed => by
    rw [renamedPairs]
    split
    · exact (pairs_fst_sublist onlyA consumed).cons _
    · next fresh _ => exact (pairs_fst_sublist onlyA (fresh.1 :: consumed)).cons_cons _

theorem pairs_snd_nodup {onlyB : List (String × FnDecl)} :
    ∀ (onlyA : List (String × FnDecl)) (consumed : List String),
      ((renamedPairs hashes onlyB onlyA consumed).map fun pair => pair.2.1).Nodup ∧
        ∀ name ∈ (renamedPairs hashes onlyB onlyA consumed).map fun pair => pair.2.1,
          name ∉ consumed
  | [], _ => ⟨nodup_nil, by simp [renamedPairs]⟩
  | gone :: onlyA, consumed => by
    rw [renamedPairs]
    split
    · exact pairs_snd_nodup onlyA consumed
    · next fresh hfind =>
      obtain ⟨hnodup, hfree⟩ := pairs_snd_nodup onlyA (fresh.1 :: consumed)
      have hfound := List.find?_some hfind
      have hfresh : fresh.1 ∉ consumed := (of_decide_eq_true hfound).2
      refine ⟨nodup_cons.mpr ⟨fun hmem => ?_, hnodup⟩, ?_⟩
      · exact hfree _ hmem mem_cons_self
      · intro name hname
        rcases mem_cons.mp hname with rfl | hname
        · exact hfresh
        · exact fun hin => hfree name hname (mem_cons_of_mem _ hin)

theorem onlyIn_keys_nodup {α β : Type} (x : Std.ExtTreeMap String α)
    (y : Std.ExtTreeMap String β) : ((onlyIn x y).map Prod.fst).Nodup :=
  (filter_sublist.map Prod.fst).nodup (nodup_keys_toList x)

theorem inBoth_keys_nodup {α β : Type} (x : Std.ExtTreeMap String α)
    (y : Std.ExtTreeMap String β) : ((inBoth x y).map Prod.fst).Nodup := by
  have hkeys := nodup_keys_toList x
  rw [List.Nodup, pairwise_map] at hkeys ⊢
  rw [inBoth, pairwise_filterMap]
  refine hkeys.imp fun {entry entry'} hne e he e' he' heq => ?_
  obtain ⟨_, -, rfl⟩ := map_eq_some_iff.mp he
  obtain ⟨_, -, rfl⟩ := map_eq_some_iff.mp he'
  exact hne heq

/-- Entries under distinct keys are about different functions. -/
theorem pairwise_singletons {γ : Type} {entries : List (String × γ)} (h : (entries.map Prod.fst).Nodup) :
    entries.Pairwise fun e e' => [e.1].Disjoint [e'.1] := by
  rw [List.Nodup, pairwise_map] at h
  exact h.imp fun hne => by simpa using hne.symm

theorem pairwise_append_nil {α : Type} {names : α → List String} {l l' : List α}
    (h : l.Pairwise fun x y => (names x).Disjoint (names y)) (hnil : ∀ x ∈ l', names x = []) :
    (l ++ l').Pairwise fun x y => (names x).Disjoint (names y) := by
  refine pairwise_append.mpr ⟨h, pairwise_iff_forall_sublist.mpr ?_, ?_⟩
  · intro x y hsub
    rw [hnil x (hsub.subset mem_cons_self)]
    exact disjoint_nil_left _
  · intro x _ y hy
    rw [hnil y hy]
    exact disjoint_nil_right _

/-- The function an entry of the removals, or of the additions, is about. -/
def AddRemove.names (r : AddRemove) : List String := entryNames r.signature r.name

/-- The functions a renaming is about. -/
def Renamed.names (r : Renamed) : List String := [r.fromName, r.toName]

/-- The function a change is about. -/
def Modified.names (m : Modified) : List String := entryNames m.signatureBefore m.name

variable (hashes a b)

/-- The renames of the functions gone, and of the new ones. -/
def fnPairs : List ((String × FnDecl) × (String × FnDecl)) :=
  renamedPairs hashes (onlyIn b.fns a.fns) (onlyIn a.fns b.fns) []

variable {hashes a b}

theorem modifiedFn_eq {name : String} {fa fb : FnDecl} {m : Modified}
    (h : modifiedFn hashes debugStr (name, fa, fb) = some m) :
    m.name = name ∧ m.signatureBefore = renderSignature debugStr fa ∧
      m.oldSigId = fnSig hashes fa ∧ m.effectChanges = effectDiff debugStr fa.effects fb.effects := by
  simp only [modifiedFn] at h
  split at h
  · cases h
  · obtain rfl := some.inj h
    exact ⟨rfl, rfl, rfl, rfl⟩

/-- Functions of one side alone, each under its name, then declarations of types: the entries are about
the functions. -/
theorem onlyIn_names {fns others : Std.ExtTreeMap String FnDecl} {consumed : List String} {ι κ : Type} {types : List ι}
    {moved : List κ} {fn : String × FnDecl → AddRemove} {type : ι → AddRemove} {type' : κ → AddRemove}
    (hfn : ∀ e, (fn e).names = [e.1]) (htype : ∀ e, (type e).names = []) (htype' : ∀ e, (type' e).names = []) :
    let entries := ((onlyIn fns others).filter fun e => decide (e.1 ∉ consumed)).map fn ++ types.map type ++
      moved.map type'
    (entries.Pairwise fun r r' => r.names.Disjoint r'.names) ∧ ∀ r ∈ entries, ∀ name ∈ r.names,
      (fns[name]?).isSome ∧ others[name]? = none ∧ name ∉ consumed := by
  constructor
  · refine pairwise_append_nil (pairwise_append_nil ?_ ?_) ?_
    · rw [pairwise_map]
      refine (pairwise_singletons (onlyIn_keys_nodup fns others)).sublist filter_sublist |>.imp fun {e e'} h => ?_
      rwa [hfn, hfn]
    · intro r hr
      obtain ⟨e, -, rfl⟩ := List.mem_map.mp hr
      exact htype e
    · intro r hr
      obtain ⟨e, -, rfl⟩ := List.mem_map.mp hr
      exact htype' e
  · intro r hr name hname
    simp only [mem_append, List.mem_map, mem_filter, decide_eq_true_eq] at hr
    rcases hr with (⟨e, ⟨he, hfree⟩, rfl⟩ | ⟨e, -, rfl⟩) | ⟨e, -, rfl⟩
    · rw [hfn, mem_singleton] at hname
      subst hname
      obtain ⟨hin, hout⟩ := mem_onlyIn.mp he
      exact ⟨by rw [hin]; rfl, hout, hfree⟩
    · rw [htype] at hname
      cases hname
    · rw [htype'] at hname
      cases hname

theorem removed_names : ((programDiff hashes debugStr a b).removed.Pairwise fun r r' => r.names.Disjoint r'.names) ∧
      ∀ r ∈ (programDiff hashes debugStr a b).removed, ∀ name ∈ r.names, (a.fns[name]?).isSome ∧ b.fns[name]? = none ∧
          name ∉ (fnPairs hashes a b).map fun pair => pair.1.1 :=
  onlyIn_names (fun _ => entryNames_fn _ _ _) (fun _ => entryNames_type _ _) fun _ => entryNames_type _ _

theorem added_names : ((programDiff hashes debugStr a b).added.Pairwise fun r r' => r.names.Disjoint r'.names) ∧
      ∀ r ∈ (programDiff hashes debugStr a b).added, ∀ name ∈ r.names, (b.fns[name]?).isSome ∧ a.fns[name]? = none ∧
          name ∉ (fnPairs hashes a b).map fun pair => pair.2.1 :=
  onlyIn_names (fun _ => entryNames_fn _ _ _) (fun _ => entryNames_type _ _) fun _ => entryNames_type _ _

theorem mem_fnPairs {pair : (String × FnDecl) × (String × FnDecl)} (h : pair ∈ fnPairs hashes a b) :
    (a.fns[pair.1.1]? = some pair.1.2 ∧ b.fns[pair.1.1]? = none) ∧
      a.fns[pair.2.1]? = none ∧ b.fns[pair.2.1]? = some pair.2.2 := by
  obtain ⟨hgone, hfresh⟩ := mem_renamedPairs h
  exact ⟨mem_onlyIn.mp hgone, (mem_onlyIn.mp hfresh).symm⟩

/-- The renamings are about the functions they pair, each once. -/
theorem renamed_names : ((programDiff hashes debugStr a b).renamed.Pairwise fun r r' => r.names.Disjoint r'.names) ∧
      ∀ r ∈ (programDiff hashes debugStr a b).renamed, ∀ name ∈ r.names,
        ((a.fns[name]?).isSome ∧ b.fns[name]? = none ∧ name ∈ (fnPairs hashes a b).map fun pair => pair.1.1) ∨
        (a.fns[name]? = none ∧ (b.fns[name]?).isSome ∧ name ∈ (fnPairs hashes a b).map fun pair => pair.2.1) := by
  have hlist : (programDiff hashes debugStr a b).renamed =
      (fnPairs hashes a b).map (renamedFn hashes debugStr) := rfl
  constructor
  · rw [hlist, pairwise_map]
    have hfst : ((fnPairs hashes a b).map fun pair => pair.1.1).Nodup :=
      (pairs_fst_sublist _ _).nodup (onlyIn_keys_nodup a.fns b.fns)
    have hsnd : ((fnPairs hashes a b).map fun pair => pair.2.1).Nodup := (pairs_snd_nodup _ _).1
    rw [List.Nodup, pairwise_map] at hfst hsnd
    refine (hfst.and hsnd).imp_of_mem fun {pair pair'} hpair hpair' hne => ?_
    -- a name gone is not a new one
    have hcross : pair.1.1 ≠ pair'.2.1 := by
      intro heq
      have hin := (mem_fnPairs hpair).1.1
      rw [heq, (mem_fnPairs hpair').2.1] at hin
      cases hin
    have hcross' : pair.2.1 ≠ pair'.1.1 := by
      intro heq
      have hout := (mem_fnPairs hpair).2.1
      rw [heq, (mem_fnPairs hpair').1.1] at hout
      cases hout
    simp [Renamed.names, renamedFn, hne.1.symm, hne.2.symm, hcross.symm, hcross'.symm]
  · intro r hr name hname
    obtain ⟨pair, hpair, rfl⟩ := List.mem_map.mp hr
    obtain ⟨⟨hin, hout⟩, hout', hin'⟩ := mem_fnPairs hpair
    simp only [Renamed.names, renamedFn, mem_cons, not_mem_nil, or_false] at hname
    rcases hname with rfl | rfl
    · exact .inl ⟨by rw [hin]; rfl, hout, List.mem_map_of_mem hpair⟩
    · exact .inr ⟨hout', by rw [hin']; rfl, List.mem_map_of_mem hpair⟩

/-- The changes are about functions of both programs, each once. -/
theorem modified_names : ((programDiff hashes debugStr a b).modified.Pairwise fun m m' => m.names.Disjoint m'.names) ∧
      ∀ m ∈ (programDiff hashes debugStr a b).modified, ∀ name ∈ m.names,
        ∃ fa fb, a.fns[name]? = some fa ∧ b.fns[name]? = some fb ∧
          modifiedFn hashes debugStr (name, fa, fb) = some m := by
  have htypes : ∀ e : String × TypeDecl × TypeDecl, (modifiedType hashes e).names = [] :=
    fun e => entryNames_type _ _
  constructor
  · simp only [programDiff]
    refine pairwise_append_nil ?_ ?_
    · rw [pairwise_filterMap]
      refine (pairwise_singletons (inBoth_keys_nodup a.fns b.fns)).imp
        fun {e e'} h m hm m' hm' => ?_
      obtain ⟨hname, hbefore, -, -⟩ := modifiedFn_eq hm
      obtain ⟨hname', hbefore', -, -⟩ := modifiedFn_eq hm'
      rw [Modified.names, Modified.names, hname, hbefore, hname', hbefore', entryNames_fn, entryNames_fn]
      exact h
    · intro m hm
      obtain ⟨e, -, rfl⟩ := List.mem_map.mp hm
      exact htypes e
  · intro m hm name hname
    simp only [programDiff, computeDiffWithTypes, mem_append, mem_filterMap, List.mem_map] at hm
    rcases hm with ⟨⟨name', fa, fb⟩, he, hm⟩ | ⟨e, -, rfl⟩
    · obtain ⟨hname', hbefore, -, -⟩ := modifiedFn_eq hm
      rw [Modified.names, hname', hbefore, entryNames_fn, mem_singleton] at hname
      subst hname
      obtain ⟨hfa, hfb⟩ := mem_inBoth.mp he
      exact ⟨fa, fb, hfa, hfb, hm⟩
    · rw [htypes e] at hname
      cases hname

/-! ## The operations of a publish touch different sigs -/

variable {inputs : DiffInputs}

theorem removed_about {r : AddRemove} {kind : OperationKind}
    (hr : r ∈ (programDiff hashes debugStr a b).removed) (h : removedOp inputs r = .ok kind) :
    AboutNames hashes r.names kind := by
  obtain ⟨sig, last, hsig, rfl⟩ := removedOp_eq h
  by_cases htype : r.signature.startsWith "type " = true
  · rw [if_pos htype]
    exact .nil rfl
  · rw [if_neg htype]
    simp only [programDiff, computeDiffWithTypes, mem_append, List.mem_map, mem_filter] at hr
    rcases hr with (⟨e, ⟨he, -⟩, rfl⟩ | ⟨e, -, rfl⟩) | ⟨e, -, rfl⟩
    · obtain ⟨-, hname⟩ := a.getElem?_fns.mp (mem_onlyIn.mp he).1
      intro sig' hsig'
      obtain rfl := mem_singleton.mp hsig'
      refine ⟨e.1, ?_, e.2, hname, some.inj hsig⟩
      rw [AddRemove.names, removedFn, entryNames_fn]
      exact mem_singleton_self _
    · exact absurd (startsWith_renderTypeSignature e.2) htype
    · exact absurd (startsWith_renderTypeSignature e.2.1) htype

theorem added_about (hnew : inputs.newStages = b.stages) {r : AddRemove} {kind : OperationKind}
    (hr : r ∈ (programDiff hashes debugStr a b).added)
    (h : addedOp hashes debugStr inputs r = .ok kind) : AboutNames hashes r.names kind := by
  have htype : ∀ (e : String × TypeDecl), b.types[e.1]? = some e.2 → addedType e = r →
      AboutNames hashes r.names kind := by
    rintro e he rfl
    obtain ⟨hmem, hname⟩ := b.getElem?_types.mp he
    obtain ⟨sig, stg, inFile, hop⟩ := addedOp_type hashes debugStr hnew (r := addedType e) hmem hname
    rw [h] at hop
    cases hop
    exact .nil rfl
  simp only [programDiff, computeDiffWithTypes, mem_append, List.mem_map, mem_filter] at hr
  rcases hr with (⟨e, ⟨he, -⟩, rfl⟩ | ⟨e, he, hr⟩) | ⟨e, ⟨he, -⟩, hr⟩
  · obtain ⟨hmem, hname⟩ := b.getElem?_fns.mp (mem_onlyIn.mp he).1
    obtain ⟨stg, inFile, hop⟩ := addedOp_fn hashes debugStr (r := addedFn debugStr e) hnew hmem hname
    rw [h] at hop
    cases hop
    intro sig hsig
    obtain rfl := mem_singleton.mp hsig
    refine ⟨e.1, ?_, e.2, hname, rfl⟩
    rw [AddRemove.names, addedFn, entryNames_fn]
    exact mem_singleton_self _
  · exact htype e (mem_onlyIn.mp he).1 hr
  · exact htype (e.1, e.2.2) (mem_inBoth.mp he).2 hr

theorem renamed_about (hnew : inputs.newStages = b.stages) {r : Renamed} {kind : OperationKind}
    (hr : r ∈ (programDiff hashes debugStr a b).renamed)
    (h : renamedOp hashes inputs r = .ok kind) : AboutNames hashes r.names kind := by
  obtain ⟨pair, hpair, rfl⟩ := List.mem_map.mp hr
  obtain ⟨⟨hin, -⟩, -, hin'⟩ := mem_fnPairs hpair
  obtain ⟨-, hname⟩ := a.getElem?_fns.mp hin
  obtain ⟨hmem', hname'⟩ := b.getElem?_fns.mp hin'
  obtain ⟨stg, inFile, hop⟩ := renamedOp_fn hashes (r := renamedFn hashes debugStr pair) hnew hmem' hname'
  rw [h] at hop
  cases hop
  intro sig hsig
  simp only [OperationKind.touches, mem_cons, not_mem_nil, or_false] at hsig
  rcases hsig with rfl | rfl
  · exact ⟨pair.1.1, mem_cons_self, pair.1.2, hname, rfl⟩
  · exact ⟨pair.2.1, mem_cons_of_mem _ mem_cons_self, pair.2.2, hname', rfl⟩

theorem modified_about (hold : inputs.oldHead = a.head hashes) (hnew : inputs.newStages = b.stages)
    {m : Modified} {kind : OperationKind} (hm : m ∈ (programDiff hashes debugStr a b).modified)
    (h : modifiedOp hashes debugStr inputs m = .ok kind) : AboutNames hashes m.names kind := by
  simp only [programDiff, computeDiffWithTypes, mem_append, mem_filterMap, List.mem_map,
    mem_filter] at hm
  rcases hm with ⟨⟨name, fa, fb⟩, he, hm⟩ | ⟨⟨name, ta, tb⟩, ⟨he, -⟩, rfl⟩
  · obtain ⟨hfa, hfb⟩ := mem_inBoth.mp he
    obtain ⟨hmem, hname⟩ := a.getElem?_fns.mp hfa
    obtain ⟨hmem', hname'⟩ := b.getElem?_fns.mp hfb
    obtain ⟨hmname, hbefore, hsig, -⟩ := modifiedFn_eq hm
    obtain ⟨fromId, toId, toSig, hto, hop⟩ :=
      modifiedOp_fn hashes debugStr hold hnew hmem hmem' hsig (hname'.trans hmname.symm)
    rw [h] at hop
    have htouches : kind.touches = [fnSig hashes fa, fnSig hashes fb] := by
      split at hop
      · cases hop
        rw [OperationKind.touches, hto]
      · cases hop
        rw [OperationKind.touches, hto]
    have hnames : name ∈ m.names := by
      rw [Modified.names, hmname, hbefore, entryNames_fn]
      exact mem_singleton_self _
    intro sig hsig'
    rw [htouches] at hsig'
    simp only [mem_cons, not_mem_nil, or_false] at hsig'
    rcases hsig' with rfl | rfl
    · exact ⟨name, hnames, fa, hname, rfl⟩
    · exact ⟨name, hnames, fb, hname', rfl⟩
  · obtain ⟨hta, htb⟩ := mem_inBoth.mp he
    obtain ⟨hmem, -⟩ := a.getElem?_types.mp hta
    obtain ⟨hmem', hname'⟩ := b.getElem?_types.mp htb
    obtain ⟨fromId, toId, toSig, hop⟩ := modifiedOp_type hashes debugStr
      (m := modifiedType hashes (name, ta, tb)) hold hnew hmem hmem' rfl hname'
    rw [h] at hop
    cases hop
    exact .nil rfl

theorem touches_importOps {oldImports newImports : ImportMap} {kind : OperationKind}
    (h : kind ∈ importOps oldImports newImports) : kind.touches = [] := by
  simp only [importOps, mem_append, mem_flatMap, List.mem_map] at h
  rcases h with ⟨entry, -, ⟨m, -, rfl⟩ | ⟨m, -, rfl⟩⟩ | ⟨entry, -, h⟩
  · rfl
  · rfl
  · split at h
    · cases h
    · obtain ⟨m, -, rfl⟩ := List.mem_map.mp h
      rfl

/-- Entries about different functions map to operations that touch different sigs, also across two
lists. -/
theorem cross_of_mapM {α β : Type} {f : α → Except DiffMappingError OperationKind}
    {g : β → Except DiffMappingError OperationKind} {names : α → List String}
    {names' : β → List String} {entries : List α} {entries' : List β}
    {kinds kinds' : List OperationKind} (h : entries.mapM f = .ok kinds) (h' : entries'.mapM g = .ok kinds')
    (habout : ∀ x ∈ entries, ∀ kind, f x = .ok kind → AboutNames hashes (names x) kind)
    (habout' : ∀ y ∈ entries', ∀ kind, g y = .ok kind → AboutNames hashes (names' y) kind)
    (hnames : ∀ x ∈ entries, ∀ y ∈ entries', (names x).Disjoint (names' y)) :
    ∀ kind ∈ kinds, ∀ kind' ∈ kinds', ∀ sig ∈ kind.touches, sig ∉ kind'.touches := by
  intro kind hkind kind' hkind'
  obtain ⟨x, hx, hfx⟩ := of_mem_mapM h kind hkind
  obtain ⟨y, hy, hgy⟩ := of_mem_mapM h' kind' hkind'
  exact (habout x hx kind hfx).disjoint (habout' y hy kind' hgy) (hnames x hx y hy)

/-- **The operations of a publish touch different sigs.** -/
theorem diffOps_apart (hold : inputs.oldHead = a.head hashes) (hnew : inputs.newStages = b.stages)
    (hdiff : inputs.diff = programDiff hashes debugStr a b) {ops : List OperationKind}
    (h : diffToOps hashes debugStr inputs = .ok ops) : Apart OperationKind.touches ops := by
  obtain ⟨removed, added, renamed, modified, hremoved, hadded, hrenamed, hmodified, rfl⟩ :=
    diffToOps_eq_ok h
  rw [hdiff] at hremoved hadded hrenamed hmodified
  obtain ⟨hpremoved, hnremoved⟩ := @removed_names hashes debugStr a b
  obtain ⟨hpadded, hnadded⟩ := @added_names hashes debugStr a b
  obtain ⟨hprenamed, hnrenamed⟩ := @renamed_names hashes debugStr a b
  obtain ⟨hpmodified, hnmodified⟩ := @modified_names hashes debugStr a b
  have habremoved := fun r hr kind => @removed_about hashes debugStr a b inputs r kind hr
  have habadded := fun r hr kind => @added_about hashes debugStr a b inputs hnew r kind hr
  have habrenamed := fun r hr kind => @renamed_about hashes debugStr a b inputs hnew r kind hr
  have habmodified := fun m hm kind =>
    @modified_about hashes debugStr a b inputs hold hnew m kind hm
  have himports : Apart OperationKind.touches
      (importOps inputs.oldImports inputs.newImports) :=
    pairwise_iff_forall_sublist.mpr fun hsub => by
      rw [touches_importOps (hsub.subset mem_cons_self)]
      simp
  have hfree : ∀ kind ∈ importOps inputs.oldImports inputs.newImports,
      ∀ kind' : OperationKind, ∀ sig ∈ kind.touches, sig ∉ kind'.touches := by
    intro kind hkind kind' sig hsig
    rw [touches_importOps hkind] at hsig
    cases hsig
  -- a function is gone, or new, or in both programs, and was renamed or not
  have hra := cross_of_mapM hremoved hadded habremoved habadded fun r hr r' hr' name h h' => by
    obtain ⟨-, hout, -⟩ := hnremoved r hr name h
    obtain ⟨hin, -⟩ := hnadded r' hr' name h'
    simp [hout] at hin
  have hrn := cross_of_mapM hremoved hrenamed habremoved habrenamed fun r hr r' hr' name h h' => by
    obtain ⟨hin, -, hnot⟩ := hnremoved r hr name h
    rcases hnrenamed r' hr' name h' with ⟨-, -, hpair⟩ | ⟨hout, -, -⟩
    · exact hnot hpair
    · simp [hout] at hin
  have hrm := cross_of_mapM hremoved hmodified habremoved habmodified
    fun r hr m hm name h h' => by
      obtain ⟨-, hout, -⟩ := hnremoved r hr name h
      obtain ⟨_, _, -, hin, -⟩ := hnmodified m hm name h'
      simp [hout] at hin
  have han := cross_of_mapM hadded hrenamed habadded habrenamed fun r hr r' hr' name h h' => by
    obtain ⟨-, hout, hnot⟩ := hnadded r hr name h
    rcases hnrenamed r' hr' name h' with ⟨hin, -, -⟩ | ⟨-, -, hpair⟩
    · simp [hout] at hin
    · exact hnot hpair
  have ham := cross_of_mapM hadded hmodified habadded habmodified fun r hr m hm name h h' => by
    obtain ⟨-, hout, -⟩ := hnadded r hr name h
    obtain ⟨_, _, hin, -, -⟩ := hnmodified m hm name h'
    simp [hout] at hin
  have hnm := cross_of_mapM hrenamed hmodified habrenamed habmodified
    fun r hr m hm name h h' => by
      obtain ⟨_, _, hin, hin', -⟩ := hnmodified m hm name h'
      rcases hnrenamed r hr name h with ⟨-, hout, -⟩ | ⟨hout, -, -⟩
      · simp [hout] at hin'
      · simp [hout] at hin
  refine pairwise_append.mpr ⟨pairwise_append.mpr ⟨pairwise_append.mpr
    ⟨pairwise_append.mpr ⟨himports, ?_, ?_⟩, ?_, ?_⟩, ?_, ?_⟩, ?_, ?_⟩
  · exact apart_of_mapM hremoved hpremoved habremoved
  · exact fun kind hkind kind' _ => hfree kind hkind kind'
  · exact apart_of_mapM hadded hpadded habadded
  · intro kind hkind kind' hkind'
    rcases mem_append.mp hkind with hkind | hkind
    · exact hfree kind hkind kind'
    · exact hra kind hkind kind' hkind'
  · exact apart_of_mapM hrenamed hprenamed habrenamed
  · intro kind hkind kind' hkind'
    rcases mem_append.mp hkind with hkind | hkind
    · rcases mem_append.mp hkind with hkind | hkind
      · exact hfree kind hkind kind'
      · exact hrn kind hkind kind' hkind'
    · exact han kind hkind kind' hkind'
  · exact apart_of_mapM hmodified hpmodified habmodified
  · intro kind hkind kind' hkind'
    rcases mem_append.mp hkind with hkind | hkind
    · rcases mem_append.mp hkind with hkind | hkind
      · rcases mem_append.mp hkind with hkind | hkind
        · exact hfree kind hkind kind'
        · exact hrm kind hkind kind' hkind'
      · exact ham kind hkind kind' hkind'
    · exact hnm kind hkind kind' hkind'

end Publish

end LexLang.Vcs
