/-
# LexLang.Vcs.EffectHistory — effects and budgets over a branch's publishes

A publish reads the effects the old program had from the stages of the head, by name and without their
arguments (`publish_program_with_intent` in `lex-store/src/store.rs`), and those of the new program
with their arguments (`effect_set` in `lex-vcs/src/diff_to_ops.rs`). So a change of effects says what
was recorded before exactly when no effect it changes from has an argument.
-/
import LexLang.Ast.PlainHashes
import LexLang.Vcs.EffectEntries

namespace LexLang.Vcs

open LexLang.Ast LexLang.Transition
open List Option

/-! ## Publishing on a branch -/

/-- A program as the parser gives it: an effect's name is an identifier. -/
structure SourceProgram extends Program where
  identifiers : ∀ decl : FnDecl, .fnDecl decl ∈ stages → ∀ effect ∈ decl.effects,
    '(' ∉ effect.name.toList

/-- No declarations. -/
def SourceProgram.empty : SourceProgram where
  stages := []
  distinct := nodup_nil
  identifiers := fun _ h => nomatch h

/-- The effects as a publish reads them from the old stage: by name. -/
def bareEffects (effects : List Effect) : EffectSet :=
  Std.ExtTreeSet.ofList (effects.map Effect.name)

/-- The effects of a function under its sig. -/
def effectsEntry (hashes : Hashes) : Stage → Option (SigId × EffectSet)
  | .fnDecl decl => some (fnSig hashes decl, bareEffects decl.effects)
  | _ => none

/-- **The effects of the old program** (`old_effects`), from the stages its head names. -/
def oldEffects (hashes : Hashes) (p : Program) : Std.ExtTreeMap SigId EffectSet :=
  Std.ExtTreeMap.ofList (p.stages.filterMap (effectsEntry hashes))

/-- What is submitted: a program, its imports, and the files its declarations come from. -/
structure Submission where
  program : SourceProgram
  imports : ImportMap
  modulePrefixes : Std.ExtTreeMap String String

/-- A branch: the program its head names, and its history. -/
structure PublishedBranch where
  program : SourceProgram
  kinds : List OperationKind

section Publishing

variable (hashes : Hashes) (debugStr : String → String)

/-- What a publish maps: head, effects and imports of the branch, and the submission. -/
def branchInputs (st : PublishedBranch) (sub : Submission) : DiffInputs where
  oldHead := (st.kinds.map transitionForKind).foldl applyTransition ∅
  oldEffects := oldEffects hashes st.program.toProgram
  oldImports := replayImports ∅ st.kinds
  newStages := sub.program.stages
  newImports := sub.imports
  diff := programDiff hashes debugStr st.program.toProgram sub.program.toProgram
  modulePrefixes := sub.modulePrefixes

/-- **One publish**: the operations of the diff go onto the history. -/
def publish (st : PublishedBranch) (sub : Submission) :
    Except DiffMappingError PublishedBranch :=
  match diffToOps hashes debugStr (branchInputs hashes debugStr st sub) with
  | .ok ops => .ok ⟨sub.program, st.kinds ++ ops⟩
  | .error e => .error e

/-- One publish after another. -/
def publishAll : PublishedBranch → List Submission → Except DiffMappingError PublishedBranch
  | st, [] => .ok st
  | st, sub :: subs =>
    match publish hashes debugStr st sub with
    | .ok st' => publishAll st' subs
    | .error e => .error e

/-- The branch before the first publish. -/
def PublishedBranch.start : PublishedBranch := ⟨.empty, []⟩

end Publishing

/-! ## Labels and names -/

section Labels

variable {debugStr : String → String}

theorem mem_effectSet {effects : List Effect} {label : String} :
    label ∈ effectSet debugStr effects ↔ ∃ effect ∈ effects, effectLabel debugStr effect = label := by
  rw [effectSet, Std.ExtTreeSet.mem_ofList, contains_iff_mem, List.mem_map]

theorem mem_bareEffects {effects : List Effect} {name : String} :
    name ∈ bareEffects effects ↔ ∃ effect ∈ effects, effect.name = name := by
  rw [bareEffects, Std.ExtTreeSet.mem_ofList, contains_iff_mem, List.mem_map]

theorem effectLabel_bare {effect : Effect} (h : effect.arg = none) : effectLabel debugStr effect = effect.name := by
  rw [effectLabel, h]

/-- An effect with one is not an identifier. -/
theorem mem_effectLabel {effect : Effect} (h : effect.arg ≠ none) : '(' ∈ (effectLabel debugStr effect).toList := by
  unfold effectLabel
  cases harg : effect.arg with
  | none => exact absurd harg h
  | some arg =>
    cases arg <;> simp

/-- **Names are labels exactly where no effect has an argument.** -/
theorem bareEffects_eq_iff {effects : List Effect} (hidentifiers : ∀ effect ∈ effects, '(' ∉ effect.name.toList) :
    bareEffects effects = effectSet debugStr effects ↔ ∀ effect ∈ effects, effect.arg = none := by
  constructor
  · intro heq effect hmem
    by_contra harg
    have hlabel : effectLabel debugStr effect ∈ bareEffects effects := by
      rw [heq]
      exact mem_effectSet.mpr ⟨effect, hmem, rfl⟩
    obtain ⟨other, hother, hname⟩ := mem_bareEffects.mp hlabel
    apply hidentifiers other hother
    rw [hname]
    exact mem_effectLabel harg
  · intro hbare
    apply Std.ExtTreeSet.ext_mem
    intro label
    rw [mem_bareEffects, mem_effectSet]
    constructor
    · rintro ⟨effect, hmem, rfl⟩
      exact ⟨effect, hmem, effectLabel_bare (hbare effect hmem)⟩
    · rintro ⟨effect, hmem, rfl⟩
      exact ⟨effect, hmem, (effectLabel_bare (hbare effect hmem)).symm⟩

/-- An entry lists a change of effects exactly where the labels are not the same. -/
theorem effectsChanged_iff {m : Modified} {before after : List Effect}
    (h : m.effectChanges = effectDiff debugStr before after) :
    effectsChanged m = true ↔ effectSet debugStr before ≠ effectSet debugStr after := by
  have hlabels : ∀ effects : List Effect, ∀ label,
      label ∈ sortedSet (effects.map (effectLabel debugStr)) ↔ label ∈ effectSet debugStr effects := by
    intro effects label
    rw [mem_sortedSet, List.mem_map, mem_effectSet]
  rw [← not_iff_not, effectsChanged, h]
  simp only [effectDiff, Bool.or_eq_true, Bool.not_eq_true', not_or, Bool.not_eq_false,
    List.isEmpty_iff, filter_eq_nil_iff, decide_eq_true_eq, not_not, hlabels]
  constructor
  · rintro ⟨hadded, hremoved⟩
    exact Std.ExtTreeSet.ext_mem fun label => ⟨hremoved label, hadded label⟩
  · intro heq
    rw [heq]
    exact ⟨fun _ h => h, fun _ h => h⟩

end Labels

theorem getElem?_oldEffects {hashes : Hashes} {p : Program} {decl : FnDecl} (hmem : .fnDecl decl ∈ p.stages) :
    (oldEffects hashes p)[fnSig hashes decl]? = some (bareEffects decl.effects) := by
  rw [oldEffects, p.getElem?_entries]
  · exact ⟨_, hmem, rfl⟩
  · intro stage stage' e e' hentry hentry' heq
    cases stage with
    | fnDecl fa =>
      cases stage' with
      | fnDecl fb =>
        obtain rfl := some.inj hentry
        obtain rfl := some.inj hentry'
        have hof : IsSigOf hashes fa.name (fnSig hashes fb) := ⟨fa, rfl, heq⟩
        exact ⟨fa.name, rfl, congrArg some (hof.name_eq ⟨fb, rfl, rfl⟩).symm⟩
      | typeDecl | importDecl => cases hentry'
    | typeDecl | importDecl => cases hentry

/-! ## What one publish does to the records -/

section Step

variable {hashes : Hashes} {debugStr : String → String} {a b : Program} {inputs : DiffInputs}
  {ops : List OperationKind} {records : Records}

/-- **The records are of the program**: each function has one, with its labels and its budget. -/
def Faithful (hashes : Hashes) (debugStr : String → String) (p : Program) (records : Records) :
    Prop :=
  ∀ decl : FnDecl, .fnDecl decl ∈ p.stages → ∃ entry, records (fnSig hashes decl) = some entry ∧
    entry.effects = effectSet debugStr decl.effects ∧
    entry.budget = budgetFromEffects (effectSet debugStr decl.effects)

/-- **The sums telescope**: the budget deltas of each function's history add up to what it declares. -/
def Telescopes (hashes : Hashes) (debugStr : String → String) (p : Program) (records : Records) :
    Prop :=
  ∀ decl : FnDecl, .fnDecl decl ∈ p.stages → ∃ entry, records (fnSig hashes decl) = some entry ∧
    entry.total = amount (budgetFromEffects (effectSet debugStr decl.effects))

/-- The operation that changes the effects of one function to those of the other. -/
def IsEffectChange (hashes : Hashes) (debugStr : String → String) (fa fb : FnDecl)
    (kind : OperationKind) : Prop :=
  ∃ fromId toId toSig, toSig.getD (fnSig hashes fa) = fnSig hashes fb ∧
    kind = .changeEffectSig (fnSig hashes fa) fromId toId (bareEffects fa.effects)
      (effectSet debugStr fb.effects) (budgetFromEffects (bareEffects fa.effects))
      (budgetFromEffects (effectSet debugStr fb.effects)) toSig

/-- The operation that changes a function but not its effects. -/
def IsBodyChange (hashes : Hashes) (debugStr : String → String) (fa fb : FnDecl)
    (kind : OperationKind) : Prop :=
  ∃ fromId toId toSig, toSig.getD (fnSig hashes fa) = fnSig hashes fb ∧
    kind = .modifyBody (fnSig hashes fa) fromId toId
      (budgetFromEffects (effectSet debugStr fb.effects))
      (budgetFromEffects (effectSet debugStr fb.effects)) toSig

/-- What is mapped is a publish of the one program over the other. -/
structure IsPublish (hashes : Hashes) (debugStr : String → String) (a b : Program)
    (inputs : DiffInputs) (ops : List OperationKind) : Prop where
  old : inputs.oldHead = a.head hashes
  new : inputs.newStages = b.stages
  diff : inputs.diff = programDiff hashes debugStr a b
  effects : inputs.oldEffects = oldEffects hashes a
  mapped : diffToOps hashes debugStr inputs = .ok ops
  listed : ∀ kind, kind ∈ ops ↔ FromEntries hashes debugStr inputs kind

variable (h : IsPublish hashes debugStr a b inputs ops)
include h

theorem IsPublish.apart : Apart OperationKind.touches ops :=
  diffOps_apart h.old h.new h.diff h.mapped

variable {fa fb : FnDecl}

/-- The entry of a function that changed maps to a change of its effects, or of its body. -/
theorem IsPublish.modified
    {name : String} {m : Modified} (hfa : a.fns[name]? = some fa) (hfb : b.fns[name]? = some fb)
    (hm : modifiedFn hashes debugStr (name, fa, fb) = some m) :
    ∃ kind, modifiedOp hashes debugStr inputs m = .ok kind ∧
      if effectSet debugStr fa.effects = effectSet debugStr fb.effects then
        IsBodyChange hashes debugStr fa fb kind
      else IsEffectChange hashes debugStr fa fb kind := by
  obtain ⟨hmem, hname⟩ := a.getElem?_fns.mp hfa
  obtain ⟨hmem', hname'⟩ := b.getElem?_fns.mp hfb
  obtain ⟨hmname, -, hsig, hchanges⟩ := modifiedFn_eq hm
  obtain ⟨fromId, toId, toSig, hto, hop⟩ :=
    modifiedOp_fn hashes debugStr h.old h.new hmem hmem' hsig (hname'.trans hmname.symm)
  rw [h.effects, getElem?_oldEffects hmem] at hop
  refine ⟨_, hop, ?_⟩
  by_cases hsame : effectSet debugStr fa.effects = effectSet debugStr fb.effects
  · rw [if_pos hsame, if_neg fun hc => (effectsChanged_iff hchanges).mp hc hsame]
    exact ⟨fromId, toId, toSig, hto, rfl⟩
  · rw [if_neg hsame, if_pos ((effectsChanged_iff hchanges).mpr hsame)]
    exact ⟨fromId, toId, toSig, hto, rfl⟩

/-- The sig of a function that is in both programs and did not change is touched by nothing. -/
theorem IsPublish.untouched (hfa : a.fns[fb.name]? = some fa) (hfb : b.fns[fb.name]? = some fb)
    (hsame : modifiedFn hashes debugStr (fb.name, fa, fb) = none) : ∀ kind ∈ ops, fnSig hashes fb ∉ kind.touches := by
  intro kind hkind htouched
  have hof : IsSigOf hashes fb.name (fnSig hashes fb) := ⟨fb, rfl, rfl⟩
  rcases (h.listed kind).mp hkind with hin | ⟨r, hr, hop⟩ | ⟨r, hr, hop⟩ | ⟨r, hr, hop⟩ | ⟨m, hm, hop⟩
  · rw [touches_importOps hin] at htouched
    cases htouched
  · rw [h.diff] at hr
    obtain ⟨name, hname, hof'⟩ := removed_about hr hop _ htouched
    obtain ⟨-, hout, -⟩ := removed_names.2 r hr name hname
    rw [← hof.name_eq hof', hfb] at hout
    cases hout
  · rw [h.diff] at hr
    obtain ⟨name, hname, hof'⟩ := added_about h.new hr hop _ htouched
    obtain ⟨-, hout, -⟩ := added_names.2 r hr name hname
    rw [← hof.name_eq hof', hfa] at hout
    cases hout
  · rw [h.diff] at hr
    obtain ⟨name, hname, hof'⟩ := renamed_about h.new hr hop _ htouched
    rcases renamed_names.2 r hr name hname with ⟨-, hout, -⟩ | ⟨hout, -, -⟩
    · rw [← hof.name_eq hof', hfb] at hout
      cases hout
    · rw [← hof.name_eq hof', hfa] at hout
      cases hout
  · rw [h.diff] at hm
    obtain ⟨name, hname, hof'⟩ := modified_about h.old h.new hm hop _ htouched
    obtain ⟨fa', fb', hfa', hfb', hmod⟩ := modified_names.2 m hm name hname
    obtain rfl : fb.name = name := hof.name_eq hof'
    obtain rfl := some.inj (hfa.symm.trans hfa')
    obtain rfl := some.inj (hfb.symm.trans hfb')
    rw [hsame] at hmod
    cases hmod

omit h in
theorem bodyHash_of_mem_pairs {onlyB : List (String × FnDecl)} :
    ∀ {onlyA : List (String × FnDecl)} {consumed : List String}
      {pair : (String × FnDecl) × (String × FnDecl)},
      pair ∈ renamedPairs hashes onlyB onlyA consumed →
        bodyHash hashes pair.2.2 = bodyHash hashes pair.1.2
  | [], _, _, h => absurd h not_mem_nil
  | gone :: onlyA, consumed, pair, h => by
    rw [renamedPairs] at h
    split at h
    · exact bodyHash_of_mem_pairs h
    · next fresh hfind =>
      rcases mem_cons.mp h with rfl | h
      · have hfound := List.find?_some hfind
        exact (of_decide_eq_true hfound).1
      · exact bodyHash_of_mem_pairs h

omit h in
theorem effects_eq_of_bodyHash_eq (h : bodyHash hashes fa = bodyHash hashes fb) : fa.effects = fb.effects := by
  have hcontent := content_eq_of_hash_eq h
  simp only [Stage.content, Stage.fnDecl.injEq, FnDecl.mk.injEq] at hcontent
  exact hcontent.2.2.2.1

/-- **Where a function of the new program comes from**: it was there and nothing touches its sig, it
was added, it had another name, or it changed. -/
theorem IsPublish.produced
    (hmem : .fnDecl fb ∈ b.stages) : (∃ fa : FnDecl, .fnDecl fa ∈ a.stages ∧ fnSig hashes fa = fnSig hashes fb ∧
        fa.effects = fb.effects ∧ ∀ kind ∈ ops, fnSig hashes fb ∉ kind.touches) ∨
      (∃ stg inFile, .addFunction (fnSig hashes fb) stg (effectSet debugStr fb.effects)
        (budgetFromEffects (effectSet debugStr fb.effects)) inFile ∈ ops) ∨
      (∃ fa : FnDecl, .fnDecl fa ∈ a.stages ∧ fa.effects = fb.effects ∧ ∃ stg inFile,
        .renameSymbol (fnSig hashes fa) (fnSig hashes fb) stg inFile ∈ ops) ∨
      ∃ fa : FnDecl, .fnDecl fa ∈ a.stages ∧ ∃ kind ∈ ops,
        if effectSet debugStr fa.effects = effectSet debugStr fb.effects then
          IsBodyChange hashes debugStr fa fb kind
        else IsEffectChange hashes debugStr fa fb kind := by
  have hfb : b.fns[fb.name]? = some fb := b.getElem?_fns.mpr ⟨hmem, rfl⟩
  cases hfa : a.fns[fb.name]? with
  | some fa =>
    obtain ⟨hmem', hname⟩ := a.getElem?_fns.mp hfa
    cases hmod : modifiedFn hashes debugStr (fb.name, fa, fb) with
    | none =>
      have hbody : bodyHash hashes fa = bodyHash hashes fb := by
        simp only [modifiedFn] at hmod
        split at hmod
        · next hsame => exact hsame.1
        · cases hmod
      have hcontent := content_eq_of_hash_eq hbody
      simp only [Stage.content, Stage.fnDecl.injEq, FnDecl.mk.injEq] at hcontent
      have hsig : fnSig hashes fa = fnSig hashes fb := by
        simp only [fnSig, sigId, Stage.sigContent, hname, hcontent]
      exact .inl ⟨fa, hmem', hsig, effects_eq_of_bodyHash_eq hbody, h.untouched hfa hfb hmod⟩
    | some m =>
      obtain ⟨kind, hop, hkind⟩ := h.modified hfa hfb hmod
      have hm : m ∈ inputs.diff.modified := by
        rw [h.diff]
        exact mem_append_left _ (mem_filterMap.mpr ⟨_, mem_inBoth.mpr ⟨hfa, hfb⟩, hmod⟩)
      have hin : kind ∈ ops := (h.listed kind).mpr (.inr (.inr (.inr (.inr ⟨m, hm, hop⟩))))
      exact .inr (.inr (.inr ⟨fa, hmem', kind, hin, hkind⟩))
  | none =>
    by_cases hpaired : fb.name ∈ (fnPairs hashes a b).map fun pair => pair.2.1
    · obtain ⟨pair, hpair, hname⟩ := List.mem_map.mp hpaired
      obtain ⟨⟨hgone, -⟩, -, hfresh⟩ := mem_fnPairs hpair
      obtain ⟨hmemGone, -⟩ := a.getElem?_fns.mp hgone
      have hsame : pair.2.2 = fb := by
        rw [hname, hfb] at hfresh
        exact (some.inj hfresh).symm
      have heffects : pair.1.2.effects = fb.effects := by
        rw [← hsame]
        exact (effects_eq_of_bodyHash_eq (bodyHash_of_mem_pairs hpair)).symm
      obtain ⟨stg, inFile, hop⟩ :=
        renamedOp_fn hashes (r := renamedFn hashes debugStr pair) h.new hmem hname.symm
      have hr : renamedFn hashes debugStr pair ∈ inputs.diff.renamed := by
        rw [h.diff]
        exact List.mem_map_of_mem hpair
      have hin := (h.listed _).mpr (.inr (.inr (.inr (.inl ⟨_, hr, hop⟩))))
      exact .inr (.inr (.inl ⟨pair.1.2, hmemGone, heffects, stg, inFile, hin⟩))
    · obtain ⟨stg, inFile, hop⟩ :=
        addedOp_fn hashes debugStr (r := addedFn debugStr (fb.name, fb)) h.new hmem rfl
      have hr : addedFn debugStr (fb.name, fb) ∈ inputs.diff.added := by
        rw [h.diff]
        refine mem_append_left _ (mem_append_left _ (List.mem_map_of_mem
          (mem_filter.mpr ⟨mem_onlyIn.mpr ⟨hfb, hfa⟩, decide_eq_true hpaired⟩)))
      have hin := (h.listed _).mpr (.inr (.inr (.inl ⟨_, hr, hop⟩)))
      exact .inr (.inl ⟨stg, inFile, hin⟩)

variable (hfaithful : Faithful hashes debugStr a records)
include hfaithful

/-- **A publish leaves the records of the new program.** -/
theorem IsPublish.faithful : Faithful hashes debugStr b (ops.foldl record records) := by
  intro fb hmem
  have hstep := fun kind hkind =>
    record_footprint.foldl_eq_step h.apart records (o := kind) hkind
  rcases h.produced hmem with ⟨fa, hfa, hsig, heffects, huntouched⟩ | ⟨stg, inFile, hin⟩ |
    ⟨fa, hfa, heffects, stg, inFile, hin⟩ | ⟨fa, hfa, kind, hin, hkind⟩
  · rw [record_footprint.foldl_of_untouched records huntouched, ← hsig, ← heffects]
    exact hfaithful fa hfa
  · rw [hstep _ hin _ mem_cons_self]
    exact ⟨_, record_target, rfl, rfl⟩
  · rw [hstep _ hin _ (mem_cons_of_mem _ mem_cons_self)]
    obtain ⟨entry, hentry, hlabels, hbudget⟩ := hfaithful fa hfa
    rw [heffects] at hlabels hbudget
    exact ⟨entry, record_target.trans hentry, hlabels, hbudget⟩
  · split at hkind
    · next hsame =>
      obtain ⟨fromId, toId, toSig, hto, rfl⟩ := hkind
      obtain ⟨entry, hentry, hlabels, hbudget⟩ := hfaithful fa hfa
      rw [hsame] at hlabels hbudget
      rw [← hto, hstep _ hin _ (mem_cons_of_mem _ mem_cons_self)]
      exact ⟨_, record_modifyBody hentry, hlabels, hbudget⟩
    · obtain ⟨fromId, toId, toSig, hto, rfl⟩ := hkind
      rw [← hto, hstep _ hin _ (mem_cons_of_mem _ mem_cons_self)]
      exact ⟨_, record_target, rfl, rfl⟩

omit hfaithful in
/-- What changes effects is the operation of a function of both programs. -/
theorem IsPublish.continues_or {kind : OperationKind} (hkind : kind ∈ ops) : (∀ records, Continues records kind) ∨
      ∃ fa fb, PairedFns a b fa fb ∧ effectSet debugStr fa.effects ≠ effectSet debugStr fb.effects ∧
        IsEffectChange hashes debugStr fa fb kind := by
  rcases (h.listed kind).mp hkind with hin | ⟨r, hr, hop⟩ | ⟨r, hr, hop⟩ | ⟨r, hr, hop⟩ | ⟨m, hm, hop⟩
  · have htouches := touches_importOps hin
    cases kind with
    | changeEffectSig => cases htouches
    | _ => exact .inl fun _ => trivial
  · obtain ⟨sig, last, -, rfl⟩ := removedOp_eq hop
    refine .inl fun _ => ?_
    split
    · trivial
    · trivial
  · unfold addedOp at hop
    repeat' split at hop
    all_goals cases hop
    all_goals exact .inl fun _ => trivial
  · unfold renamedOp at hop
    split at hop
    · cases hop
    · cases hop
      exact .inl fun _ => trivial
  · rw [h.diff] at hm
    simp only [programDiff, computeDiffWithTypes, mem_append, mem_filterMap,
      List.mem_map, mem_filter] at hm
    rcases hm with ⟨⟨name, fa, fb⟩, he, hm⟩ | ⟨⟨name, ta, tb⟩, ⟨he, -⟩, rfl⟩
    · obtain ⟨hfa, hfb⟩ := mem_inBoth.mp he
      obtain ⟨hmem, hname⟩ := a.getElem?_fns.mp hfa
      obtain ⟨hmem', hname'⟩ := b.getElem?_fns.mp hfb
      obtain ⟨kind', hop', hkind'⟩ := h.modified hfa hfb hm
      obtain rfl := Except.ok.inj (hop.symm.trans hop')
      split at hkind'
      · obtain ⟨fromId, toId, toSig, -, rfl⟩ := hkind'
        exact .inl fun _ => trivial
      · next hchanged =>
        exact .inr ⟨fa, fb, ⟨hmem, hmem', hname.trans hname'.symm⟩, hchanged, hkind'⟩
    · obtain ⟨hta, htb⟩ := mem_inBoth.mp he
      obtain ⟨hmem, -⟩ := a.getElem?_types.mp hta
      obtain ⟨hmem', hname'⟩ := b.getElem?_types.mp htb
      obtain ⟨fromId, toId, toSig, hop'⟩ := modifiedOp_type hashes debugStr
        (m := modifiedType hashes (name, ta, tb)) h.old h.new hmem hmem' rfl hname'
      rw [hop] at hop'
      cases hop'
      exact .inl fun _ => trivial

omit h in
/-- A change of effects continues a faithful record where the old names are the old labels. -/
theorem continues_effectChange_iff
    (hfa : .fnDecl fa ∈ a.stages) {kind : OperationKind} (hkind : IsEffectChange hashes debugStr fa fb kind) :
    Continues records kind ↔ bareEffects fa.effects = effectSet debugStr fa.effects := by
  obtain ⟨fromId, toId, toSig, -, rfl⟩ := hkind
  obtain ⟨entry, hentry, hlabels, hbudget⟩ := hfaithful fa hfa
  constructor
  · rintro ⟨entry', hentry', heffects, -⟩
    obtain rfl := some.inj (hentry.symm.trans hentry')
    exact heffects.trans hlabels
  · intro heq
    refine ⟨entry, hentry, heq.trans hlabels.symm, ?_⟩
    rw [heq, hbudget]

/-- **The operations of a publish continue the record exactly where no function's effects change from
ones whose names are not their labels.** -/
theorem IsPublish.continuous_iff : Continuous records ops ↔ ∀ fa fb, PairedFns a b fa fb →
      effectSet debugStr fa.effects ≠ effectSet debugStr fb.effects →
        bareEffects fa.effects = effectSet debugStr fa.effects := by
  -- an operation finds at its own sig what was recorded before the publish
  have hbefore : ∀ before kind after, ops = before ++ kind :: after → ∀ fa fb,
      IsEffectChange hashes debugStr fa fb kind →
        (Continues (before.foldl record records) kind ↔ Continues records kind) := by
    rintro before kind after rfl fa fb ⟨fromId, toId, toSig, -, rfl⟩
    have hfound := record_footprint.foldl_before h.apart records _ mem_cons_self
    simp only [Continues, hfound]
  constructor
  · rintro hcontinuous fa fb ⟨hfa, hfb, hname⟩ hchanged
    obtain ⟨kind, hin, hkind⟩ : ∃ kind ∈ ops, IsEffectChange hashes debugStr fa fb kind := by
      have hgetA : a.fns[fb.name]? = some fa := a.getElem?_fns.mpr ⟨hfa, hname⟩
      have hgetB : b.fns[fb.name]? = some fb := b.getElem?_fns.mpr ⟨hfb, rfl⟩
      cases hmod : modifiedFn hashes debugStr (fb.name, fa, fb) with
      | none =>
        simp only [modifiedFn] at hmod
        split at hmod
        · next hsame => exact absurd (by rw [effects_eq_of_bodyHash_eq hsame.1]) hchanged
        · cases hmod
      | some m =>
        obtain ⟨kind, hop, hkind⟩ := h.modified hgetA hgetB hmod
        rw [if_neg hchanged] at hkind
        have hm : m ∈ inputs.diff.modified := by
          rw [h.diff]
          exact mem_append_left _
            (mem_filterMap.mpr ⟨_, mem_inBoth.mpr ⟨hgetA, hgetB⟩, hmod⟩)
        exact ⟨kind, (h.listed kind).mpr (.inr (.inr (.inr (.inr ⟨m, hm, hop⟩)))), hkind⟩
    obtain ⟨before, after, heq⟩ := append_of_mem hin
    rw [← continues_effectChange_iff hfaithful hfa hkind, ← hbefore before kind after heq fa fb hkind]
    exact hcontinuous before kind after heq
  · intro hspared before kind after heq
    have hin : kind ∈ ops := by
      rw [heq]
      exact mem_append_right _ mem_cons_self
    rcases h.continues_or hin with htrivial | ⟨fa, fb, hpaired, hchanged, hkind⟩
    · exact htrivial _
    · rw [hbefore before kind after heq fa fb hkind, continues_effectChange_iff hfaithful hpaired.1 hkind]
      exact hspared fa fb hpaired hchanged

/-- **Where the operations of a publish continue the record, the sums still telescope.** -/
theorem IsPublish.telescopes (hcontinuous : Continuous records ops)
    (hsums : Telescopes hashes debugStr a records) : Telescopes hashes debugStr b (ops.foldl record records) := by
  intro fb hmem
  have hstep := fun kind hkind =>
    record_footprint.foldl_eq_step h.apart records (o := kind) hkind
  rcases h.produced hmem with ⟨fa, hfa, hsig, heffects, huntouched⟩ | ⟨stg, inFile, hin⟩ |
    ⟨fa, hfa, heffects, stg, inFile, hin⟩ | ⟨fa, hfa, kind, hin, hkind⟩
  · rw [record_footprint.foldl_of_untouched records huntouched, ← hsig, ← heffects]
    exact hsums fa hfa
  · rw [hstep _ hin _ mem_cons_self]
    refine ⟨_, record_target, ?_⟩
    simp [OperationKind.change, OperationKind.budgetDelta, amount]
  · rw [hstep _ hin _ (mem_cons_of_mem _ mem_cons_self)]
    obtain ⟨entry, hentry, htotal⟩ := hsums fa hfa
    rw [heffects] at htotal
    exact ⟨entry, record_target.trans hentry, htotal⟩
  · obtain ⟨entry, hentry, htotal⟩ := hsums fa hfa
    split at hkind
    · next hsame =>
      obtain ⟨fromId, toId, toSig, hto, rfl⟩ := hkind
      rw [hsame] at htotal
      rw [← hto, hstep _ hin _ (mem_cons_of_mem _ mem_cons_self)]
      refine ⟨_, record_modifyBody hentry, ?_⟩
      rw [sub_self, add_zero, htotal]
    · next hchanged =>
      have hnames : bareEffects fa.effects = effectSet debugStr fa.effects := by
        obtain ⟨before, after, heq⟩ := append_of_mem hin
        have hfound := hcontinuous before kind after heq
        obtain ⟨fromId, toId, toSig, -, rfl⟩ := hkind
        rw [heq] at h
        have hrecord := record_footprint.foldl_before h.apart records _ mem_cons_self
        obtain ⟨entry', hentry', heffects, -⟩ := hfound
        obtain ⟨entry₀, hentry₀, hlabels, -⟩ := hfaithful fa hfa
        rw [hrecord, hentry₀] at hentry'
        obtain rfl := some.inj hentry'
        exact heffects.trans hlabels
      obtain ⟨fromId, toId, toSig, hto, rfl⟩ := hkind
      rw [← hto, hstep _ hin _ (mem_cons_of_mem _ mem_cons_self)]
      refine ⟨_, record_target, ?_⟩
      simp [hentry, htotal, OperationKind.change, OperationKind.budgetDelta, hnames]

end Step

/-! ## Every run -/

section Run

variable (hashes : Hashes) (debugStr : String → String)

/-- **A publish changes no effects that have arguments**: where a function's labels change, none of
its old effects has one. -/
def SparesArguments (a b : Program) : Prop :=
  ∀ fa fb, PairedFns a b fa fb → effectSet debugStr fa.effects ≠ effectSet debugStr fb.effects →
    ∀ effect ∈ fa.effects, effect.arg = none

/-- No publish of a run changes effects that have arguments. -/
def RunSpares : Program → List Submission → Prop
  | _, [] => True
  | a, sub :: subs =>
    SparesArguments debugStr a sub.program.toProgram ∧ RunSpares sub.program.toProgram subs

/-- What holds of a branch between publishes: the history replays to the program's head, and its
records are the program's. -/
structure InStep (st : PublishedBranch) : Prop where
  head : (st.kinds.map transitionForKind).foldl applyTransition ∅ =
    st.program.toProgram.head hashes
  faithful : Faithful hashes debugStr st.program.toProgram (recorded st.kinds)

variable {hashes debugStr}

theorem inStep_start : InStep hashes debugStr .start where
  head := rfl
  faithful := fun _ h => nomatch h

theorem recorded_append (kinds ops : List OperationKind) :
    recorded (kinds ++ ops) = ops.foldl record (recorded kinds) := foldl_append

/-- **One publish**: it succeeds, and the branch stays in step. -/
theorem InStep.publish {st : PublishedBranch} (h : InStep hashes debugStr st) (sub : Submission) :
    ∃ ops, publish hashes debugStr st sub = .ok ⟨sub.program, st.kinds ++ ops⟩ ∧
      IsPublish hashes debugStr st.program.toProgram sub.program.toProgram (branchInputs hashes debugStr st sub) ops ∧
      InStep hashes debugStr ⟨sub.program, st.kinds ++ ops⟩ := by
  obtain ⟨ops, hops, hlisted, hreaches⟩ := @diffToOps_reaches hashes debugStr
    st.program.toProgram sub.program.toProgram (branchInputs hashes debugStr st sub) h.head rfl rfl
  have hpublish : IsPublish hashes debugStr st.program.toProgram sub.program.toProgram
      (branchInputs hashes debugStr st sub) ops := ⟨h.head, rfl, rfl, rfl, hops, hlisted⟩
  refine ⟨ops, ?_, hpublish, ?_, ?_⟩
  · simp only [Vcs.publish, hops]
  · rw [map_append, foldl_append, h.head]
    exact hreaches
  · rw [recorded_append]
    exact hpublish.faithful h.faithful

/-- The names of the old effects are their labels where no argument is changed. -/
theorem spares_iff (a : SourceProgram) (b : Program) :
    SparesArguments debugStr a.toProgram b ↔ ∀ fa fb, PairedFns a.toProgram b fa fb →
      effectSet debugStr fa.effects ≠ effectSet debugStr fb.effects →
        bareEffects fa.effects = effectSet debugStr fa.effects := by
  constructor
  · intro h fa fb hpaired hchanged
    exact (bareEffects_eq_iff (a.identifiers fa hpaired.1)).mpr (h fa fb hpaired hchanged)
  · intro h fa fb hpaired hchanged
    exact (bareEffects_eq_iff (a.identifiers fa hpaired.1)).mp (h fa fb hpaired hchanged)

/-- **A run from any branch in step.** -/
theorem publishAll_spec (subs : List Submission) : ∀ {st : PublishedBranch}, InStep hashes debugStr st →
      ∃ st' ops, publishAll hashes debugStr st subs = .ok st' ∧ st'.kinds = st.kinds ++ ops ∧
        (Continuous (recorded st.kinds) ops ↔ RunSpares debugStr st.program.toProgram subs) ∧
        (Continuous (recorded st.kinds) ops → Telescopes hashes debugStr st.program.toProgram (recorded st.kinds) →
            Telescopes hashes debugStr st'.program.toProgram (recorded st'.kinds)) := by
  induction subs with
  | nil =>
    intro st _
    refine ⟨st, [], rfl, (append_nil _).symm, ?_, fun _ hsums => hsums⟩
    refine iff_of_true (fun before kind after heq => ?_) trivial
    exact absurd heq.symm (by simp)
  | cons sub subs ih =>
    intro st hst
    obtain ⟨ops, hpublish, his, hst'⟩ := hst.publish sub
    obtain ⟨st', more, hall, hkinds, hiff, hsums⟩ := ih hst'
    rw [recorded_append] at hiff hsums
    refine ⟨st', ops ++ more, ?_, ?_, ?_, ?_⟩
    · simp only [publishAll, hpublish]
      exact hall
    · rw [hkinds, append_assoc]
    · rw [Continuous.append, hiff, his.continuous_iff hst.faithful, ← spares_iff]
      rfl
    · intro hcontinuous hbefore
      obtain ⟨hfirst, hrest⟩ := Continuous.append.mp hcontinuous
      exact hsums hrest (his.telescopes hst.faithful hfirst hbefore)

/-- **The recorded effects and budgets are continuous in exactly the runs that never change effects
with arguments**: there every change of effects starts from what was recorded last, and the budget
deltas of each function's history add up to what it declares. -/
theorem history_continuous_iff (hashes : Hashes) (debugStr : String → String) (subs : List Submission) :
    ∃ st, publishAll hashes debugStr .start subs = .ok st ∧ ((Continuous (fun _ => none) st.kinds ∧
          Telescopes hashes debugStr st.program.toProgram (recorded st.kinds)) ↔
        RunSpares debugStr SourceProgram.empty.toProgram subs) := by
  obtain ⟨st, ops, hall, hkinds, hiff, hsums⟩ := publishAll_spec subs (@inStep_start hashes debugStr)
  refine ⟨st, hall, ?_⟩
  have hops : st.kinds = ops := hkinds
  rw [hops] at hsums ⊢
  constructor
  · rintro ⟨hcontinuous, -⟩
    exact hiff.mp hcontinuous
  · intro hspares
    have hcontinuous := hiff.mpr hspares
    exact ⟨hcontinuous, hsums hcontinuous fun _ h => nomatch h⟩

/-- A function that declares a budget. -/
def spend (n : Int) : FnDecl where
  name := "spend"
  typeParams := []
  params := []
  effects := [⟨"budget", some (.int n)⟩]
  effectRowVar := none
  returnType := .named "Int" []
  body := .literal (.int 1)
  examples := []
  doc := []

/-- The program of that function. -/
def spending (n : Int) : Submission where
  program :=
    { stages := [.fnDecl (spend n)]
      distinct := nodup_singleton _
      identifiers := by
        rintro decl hmem effect heffect
        obtain rfl := Stage.fnDecl.inj (mem_singleton.mp hmem)
        obtain rfl := mem_singleton.mp heffect
        show '(' ∉ "budget".toList
        decide +kernel }
  imports := ∅
  modulePrefixes := ∅

/-- **A budget lowered from 50 to 30 is recorded as one that was not there**: what the change of
effects starts from is the bare `budget`, not the `budget(50)` recorded when the function was
added. -/
theorem lowered_budget_not_continuous : ∃ st, publishAll plainHashes id .start [spending 50, spending 30] = .ok st ∧
      ¬ Continuous (fun _ => none) st.kinds := by
  obtain ⟨st, ops, hall, hkinds, hiff, -⟩ :=
    publishAll_spec [spending 50, spending 30] (@inStep_start plainHashes id)
  refine ⟨st, hall, fun hcontinuous => ?_⟩
  have hops : st.kinds = ops := hkinds
  rw [hops] at hcontinuous
  obtain ⟨-, hspares, -⟩ := hiff.mp hcontinuous
  have hchanged : effectSet id (spend 50).effects ≠ effectSet id (spend 30).effects := by
    intro heq
    have hlabel : "budget(50)" ∈ effectSet id (spend 50).effects :=
      mem_effectSet.mpr ⟨_, mem_cons_self, by decide +kernel⟩
    rw [heq] at hlabel
    obtain ⟨effect, hmem, hlabel⟩ := mem_effectSet.mp hlabel
    obtain rfl := mem_singleton.mp hmem
    exact absurd hlabel (by decide +kernel)
  have hnone := hspares (spend 50) (spend 30)
    ⟨mem_singleton_self _, mem_singleton_self _, rfl⟩ hchanged _ mem_cons_self
  cases hnone

end Run

end LexLang.Vcs
