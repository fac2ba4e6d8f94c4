/-
# LexLang.Store.Calls — every call, and what it has landed when it returns

`Call.conduct`: a call that returns the ids of operations was seen landing each of them on its
branch, and was not seen rolling back afterwards.
-/
import LexLang.Store.Conduct

namespace LexLang

open LexLang.Vcs LexLang.Concurrent
open List

/-! ## What a call returns, and where it writes -/

/-- The ids a call acknowledges. -/
def Outcome.ids : Outcome → List OpId
  | .landed opId => [opId]
  | .published outcome => outcome.ops
  | .advanced _ | .done => []

/-- The branch a call writes. -/
def Call.branch : Call → Option BranchName
  | .applyOperation branch _ _ | .planAndApply branch _ _ | .applyOperationGated branch _ _ _
  | .replaceMatchArm branch _ _ _ _ _ _ _ _ | .renameLocal branch _ _ _ _ _ _ _ _ _
  | .inlineLet branch _ _ _ _ _ _ _ _ | .promote branch _ _ | .publish branch _ _ _
  | .applyMergeOpGated branch _ _ | .applyMergeOpGatedWithManifest branch _ _ _ _
  | .applySetFiles branch _ _ | .advanceBranchHeadFf branch _ | .reportAndCommit _ branch
  | .commitMerge branch _ | .createBranch branch _ => some branch
  | .retroBlock _ _ => none

/-- A rollback takes back. -/
def Event.takesBack : Event → Bool
  | .rolledBack _ _ _ => true
  | _ => false

/-- **Landed and not taken back**: the events hold a landing of the operation, and no rollback
since. -/
def StillLanded (branch : BranchName) (id : OpId) (events : List Event) : Prop :=
  ∃ newer parent record filed older, record.opId = id ∧
    events = newer ++ .landed branch parent record filed :: older ∧
      ∀ event ∈ newer, event.takesBack = false

variable {events : List Event} {branch : BranchName}

theorem StillLanded.later {id : OpId} {newer : List Event}
    (h : StillLanded branch id events) (hnewer : ∀ event ∈ newer, event.takesBack = false) :
    StillLanded branch id (newer ++ events) := by
  obtain ⟨between, parent, record, filed, older, hid, rfl, hbetween⟩ := h
  refine ⟨newer ++ between, parent, record, filed, older, hid, by simp, ?_⟩
  intro event hevent
  rcases mem_append.mp hevent with h | h
  · exact hnewer event h
  · exact hbetween event h

theorem StillLanded.earlier {id : OpId} {older : List Event}
    (h : StillLanded branch id events) : StillLanded branch id (events ++ older) := by
  obtain ⟨newer, parent, record, filed, rest, hid, rfl, hnewer⟩ := h
  exact ⟨newer, parent, record, filed, rest ++ older, hid, by simp, hnewer⟩

/-- How a program ends that returns what it acknowledges. -/
def Acknowledges {ρ : Type} (ids : ρ → List OpId) (branch : BranchName) (result : Except StoreError ρ)
    (events : List Event) : Prop :=
  ∀ a, result = .ok a → ∀ id ∈ ids a, StillLanded branch id events

section Rules

variable {ι : Type} [DecidableEq ι] {env : Env} {G : ι → List Event → Event → Prop} {i : ι}
  {w : World ι Store Event} {branch : BranchName} {ρ ρ' : Type}

variable {ids : ρ → List OpId}

theorem Acknowledges.error {e : StoreError} : Acknowledges ids branch (.error e) events := by
  intro a ha
  cases ha

theorem Acknowledges.silent {result : Except StoreError ρ} : Acknowledges (fun _ => []) branch result events := by
  intro a _ id hid
  cases hid

variable {result : Except StoreError OpId}

variable {transition : StageTransition}

theorem acknowledges_landed {before : List Event}

    (h : LandsAfter branch transition before result events) :
    Acknowledges (fun id => [id]) branch result events := by
  rintro opId rfl id hid
  obtain ⟨parent, record, filed, hrecord, _, rfl⟩ := h
  exact ⟨[], parent, record, filed, before, hrecord.trans (mem_singleton.mp hid).symm, rfl,
    fun _ h => by cases h⟩

theorem acknowledges_planned
    (h : PlannedLanding branch result events) : Acknowledges (fun id => [id]) branch result events := by
  rintro opId rfl id hid
  obtain ⟨head, map, parent, record, filed, hrecord, rfl⟩ := h
  exact ⟨[], parent, record, filed, _, hrecord.trans (mem_singleton.mp hid).symm, rfl,
    fun _ h => by cases h⟩

theorem acknowledges_merge
    (h : MergeEnd branch result events) : Acknowledges (fun id => [id]) branch result events := by
  rintro opId rfl id hid
  obtain ⟨head, parent, record, filed, judged, map, hrecord, rfl⟩ := h
  refine ⟨[.passed map, .judged branch judged map], parent, record, filed, [.merging branch head],
    hrecord.trans (mem_singleton.mp hid).symm, rfl, ?_⟩
  intro event hevent
  simp only [mem_cons, not_mem_nil, or_false] at hevent
  rcases hevent with rfl | rfl <;> rfl

/-! ## Single operations -/

/-- The events of a caller that lands single operations. -/
def Event.ofWriter : Event → Bool
  | .planned _ _ _ | .passed _ | .landed _ _ _ _ => true
  | _ => false

/-- The calls that land single operations. -/
def Call.isWriter : Call → Bool
  | .applyOperation _ _ _ | .planAndApply _ _ _ | .applyOperationGated _ _ _ _
  | .replaceMatchArm _ _ _ _ _ _ _ _ _ | .renameLocal _ _ _ _ _ _ _ _ _ _
  | .inlineLet _ _ _ _ _ _ _ _ _ | .promote _ _ _ | .publish _ _ _ _ => true
  | _ => false

variable {intentId : Option IntentId}

section Writers

variable (hG : ∀ older event, event.ofWriter = true → G i older event)

include hG

omit [DecidableEq ι] in
theorem mayPlan_of_writer (older : List Event) : MayPlan G i branch older where
  plan _ _ := hG _ _ rfl
  pass _ _ _ := hG _ _ rfl
  land _ _ _ _ _ := hG _ _ rfl

variable {program : HeadMap}

/-- One operation of a publish. It has landed even if its attestations are lost. -/
theorem sat_publishOp {kind : OperationKind} : Sat (spec env G) i (Seen i w fun result events =>
        Acknowledges (fun id => [id]) branch result events ∧ ∀ event ∈ events, event.takesBack = false)
      (publishOp env branch program intentId kind).run w := by
  have hnothing : ∀ e, Acknowledges (fun id => [id]) branch (.error e) [] ∧
      ∀ event ∈ ([] : List Event), event.takesBack = false :=
    fun e => ⟨.error, fun _ h => by cases h⟩
  have hstage : Sat (spec env G) i (fun _ w' => Grew i [] w w')
      (publishStageOf program kind).run w := by
    unfold publishStageOf
    split
    · exact sat_publishStage _ _
    · exact Grew.refl i w
  refine sat_then_seen hstage ?_ hnothing
  intro _ w₁ _
  refine sat_then_seen (sat_query.mono fun _ _ h => h.1) ?_ hnothing
  intro _ w₂ _
  refine sat_then_seen (sat_readHead.mono fun _ _ h => h.1) ?_ hnothing
  intro headNow w₃ _
  refine sat_bind_seen ((applyOperation_sat fun _ _ _ _ _ => hG _ _ rfl).mono
    fun _ _ h => h.seen) ?_ ?_
  · rintro opId events w₄ hlanded _
    have hacknowledged := acknowledges_landed hlanded
    obtain ⟨parent, record, filed, _, _, rfl⟩ := hlanded
    have hkept : ∀ event ∈ [Event.landed branch parent record filed], event.takesBack = false := by
      intro event hevent
      rw [mem_singleton.mp hevent]
      rfl
    refine sat_then_seen (sat_putAttestations _) ?_ fun e => ⟨.error, hkept⟩
    exact fun _ _ _ => sat_pure_seen ⟨hacknowledged, hkept⟩
  · intro e events hevents
    rw [suffix_nil.mp hevents]
    exact hnothing e

/-- **The operations of a publish**: each has landed when the last one has. -/
theorem sat_publishOps (kinds : List OperationKind) : Sat (spec env G) i (Seen i w fun result events =>
        Acknowledges id branch result events ∧ ∀ event ∈ events, event.takesBack = false)
      (publishOps env branch program intentId kinds).run w := by
  induction kinds generalizing w with
  | nil =>
    refine sat_pure_seen ⟨?_, fun _ h => by cases h⟩
    intro ids hids id hid
    rw [← Except.ok.inj hids] at hid
    cases hid
  | cons kind kinds ih =>
    refine sat_bind_seen (sat_publishOp hG) ?_ fun e events h => ⟨.error, h.2⟩
    rintro opId events w₁ ⟨hfirst, hkept⟩ _
    refine sat_bind_seen ih ?_ ?_
    · rintro rest more w₂ ⟨hrest, hkept'⟩ _
      refine sat_pure_seen ⟨?_, ?_⟩
      · intro ids hids id hid
        rw [← Except.ok.inj hids] at hid
        rcases mem_cons.mp hid with rfl | hid
        · exact (hfirst id rfl id (mem_singleton_self id)).later hkept'
        · exact (hrest rest rfl id hid).earlier
      · intro event hevent
        rcases mem_append.mp hevent with h | h
        · exact hkept' event h
        · exact hkept event h
    · rintro e more ⟨_, hkept'⟩
      refine ⟨.error, fun event hevent => ?_⟩
      rcases mem_append.mp hevent with h | h
      · exact hkept' event h
      · exact hkept event h

/-- **A publish.** -/
theorem sat_publishProgram {diffToOps : Store → HeadMap → Except StoreError (List OperationKind)} :
    Sat (spec env G) i (Seen i w (Acknowledges PublishOutcome.ops branch))
      (publishProgramWithIntent env branch program diffToOps intentId).run w := by
  refine sat_bind_seen (sat_typeCheck (hG _ _ rfl)) ?_ fun e events _ => .error
  intro passed _ w₁ _ _
  cases passed with
  | false => exact sat_throw_seen .error
  | true =>
    refine sat_bind_seen (sat_planFrom fun _ _ => hG _ _ rfl) ?_ fun e events _ => .error
    intro oldHead _ w₂ _ _
    refine sat_then_seen (sat_query.mono fun _ _ h => h.1) ?_ fun e => .error
    intro kinds w₃ _
    refine sat_bind_seen (sat_publishOps hG kinds) ?_ fun e events _ => .error
    rintro ops events w₄ ⟨hops, _⟩ _
    have hall : ∀ outcome : PublishOutcome, outcome.ops = ops → ∀ older,
        Acknowledges PublishOutcome.ops branch (.ok outcome) (events ++ older) := by
      intro outcome houtcome older a ha id hid
      rw [← Except.ok.inj ha, houtcome] at hid
      exact (hops ops rfl id hid).earlier
    refine sat_then_seen (sat_update (fun _ => rfl) (fun _ _ => rfl) fun _ => rfl) ?_
      fun e => .error
    intro _ w₅ _
    cases ops.getLast? with
    | some opId =>
      refine sat_pure_seen ?_
      rw [append_assoc]
      exact hall _ rfl _
    | none =>
      refine sat_then_seen (sat_readHead.mono fun _ _ h => h.1) ?_ fun e => .error
      intro headOp w₆ _
      refine sat_pure_seen ?_
      rw [append_assoc]
      exact hall _ rfl _

omit hG in
theorem sat_map {p : StoreProg ρ} {f : ρ → ρ'} {ids' : ρ' → List OpId}
    (hf : ∀ a, ids' (f a) = ids a) (hp : Sat (spec env G) i (Seen i w (Acknowledges ids branch)) p.run w) :
    Sat (spec env G) i (Seen i w (Acknowledges ids' branch)) (f <$> p).run w := by
  refine sat_bind_seen hp ?_ fun e events _ => .error
  intro a events w' ha _
  refine sat_pure_seen fun outcome houtcome id hid => ?_
  rw [← Except.ok.inj houtcome, hf] at hid
  exact ha a rfl id hid

/-- **A caller that lands single operations.** -/
theorem sat_writer {call : Call} (hwriter : call.isWriter = true) (hbranch : call.branch = some branch) :
    Sat (spec env G) i (Seen i w (Acknowledges Outcome.ids branch)) (call.prog env).run w := by
  have hplanned : ∀ {p : StoreProg OpId},
      Sat (spec env G) i (Seen i w (PlannedLanding branch)) p.run w →
        Sat (spec env G) i (Seen i w (Acknowledges Outcome.ids branch))
          (Outcome.landed <$> p).run w := by
    intro p hp
    refine sat_map (fun _ => rfl) (hp.mono fun result w' h => ?_)
    obtain ⟨events, hgrew, hshape⟩ := h
    exact ⟨events, hgrew, acknowledges_planned hshape⟩
  have hmay : MayPlan G i branch (own i w.trace) := mayPlan_of_writer hG _
  cases call with
  | applyOperation b op t =>
    obtain rfl := Option.some.inj hbranch
    refine sat_map (fun _ => rfl) ((applyOperation_sat fun _ _ _ _ _ => hG _ _ rfl).mono ?_)
    intro result w' h
    obtain ⟨events, hgrew, hshape⟩ := h.seen
    exact ⟨events, hgrew, acknowledges_landed hshape⟩
  | planAndApply b plan intent =>
    obtain rfl := Option.some.inj hbranch
    exact hplanned (sat_planAndApply hmay)
  | applyOperationGated b op t intent =>
    obtain rfl := Option.some.inj hbranch
    exact hplanned (sat_applyOperationGated hmay)
  | replaceMatchArm | renameLocal | inlineLet =>
    obtain rfl := Option.some.inj hbranch
    exact hplanned (sat_applyTransform hmay)
  | promote b candidate budgetOf =>
    obtain rfl := Option.some.inj hbranch
    exact hplanned (sat_promoteCandidate hmay)
  | publish b program diffToOps intentId =>
    obtain rfl := Option.some.inj hbranch
    exact sat_map (fun _ => rfl) (sat_publishProgram hG)
  | _ => cases hwriter

end Writers

/-! ## Unguarded callers -/

section Unguarded

variable (hG : ∀ older event, G i older event)

include hG

theorem sat_applySetFiles {manifest : BlobId} : Sat (spec env G) i (Seen i w (LandsAfter branch .filesOnly []))
      (applySetFiles env branch manifest intentId).run w := by
  refine sat_then_seen (sat_query.mono fun _ _ h => h.1) ?_ fun e => nil_suffix
  intro _ w₁ _
  refine sat_then_seen (sat_readHead.mono fun _ _ h => h.1) ?_ fun e => nil_suffix
  intro headNow w₂ _
  exact (applyOperation_sat fun _ _ _ _ _ => hG _ _).mono fun _ _ h => h.seen

omit [DecidableEq ι] in
theorem mayMerge_of_unguarded (op : Operation) (transition : StageTransition) (older : List Event) :
    MayMerge G i branch op transition older where
  begin _ := hG _ _
  land _ _ _ _ _ _ := hG _ _
  judge _ _ _ _ _ _ := hG _ _
  pass _ _ _ _ _ _ := hG _ _
  back _ _ _ _ _ _ _ := hG _ _
  lost _ _ _ _ _ _ := hG _ _

omit [DecidableEq ι] in
theorem mayCommit_of_unguarded (report : MergeReport) (older : List Event) : MayCommit G i branch report older where
  merge _ _ _ _ _ := mayMerge_of_unguarded hG _ _ older
  push _ _ := hG _ _
  journal _ _ _ := hG _ _

/-- **A merge and its manifest**: a refused manifest takes the merge back as well. -/
theorem sat_applyMergeOpGatedWithManifest {op : Operation} {manifest : Option BlobId} :
    Sat (spec env G) i (Seen i w (Acknowledges (fun id => [id]) branch))
      (applyMergeOpGatedWithManifest env branch op transition manifest intentId).run w := by
  refine sat_bind sat_readHead ?_ fun e w' h => .of_unseen h.1 .error
  intro headBefore w₁ h₁
  refine (?_ : Sat (spec env G) i (Seen i w₁ (Acknowledges (fun id => [id]) branch)) _ w₁).mono
    fun _ _ h => h.after_unseen h₁.1
  refine sat_bind_seen (sat_applyMergeOpGated (mayMerge_of_unguarded hG op transition _)) ?_
    fun e events _ => .error
  intro mergeOpId events w₂ hmerge h₂
  cases manifest with
  | none =>
    refine sat_pure_seen ?_
    exact acknowledges_merge hmerge
  | some manifest =>
    refine sat_attempt (sat_applySetFiles hG) ?_
    rintro result w₃ ⟨more, h₃, hmore⟩
    refine (?_ : Sat (spec env G) i (Seen i w₃ fun result newer =>
      Acknowledges (fun id => [id]) branch result (newer ++ more ++ events)) _ w₃).mono
        fun _ _ h => by simpa using h.after h₃
    cases result with
    | ok opId =>
      refine sat_pure_seen fun a ha id hid => ?_
      have hlanded := acknowledges_landed hmore opId rfl id
      rw [← Except.ok.inj ha] at hid
      exact (hlanded hid).earlier
    | error e =>
      refine sat_bind_seen (sat_rollBack ?_ (fun _ _ _ => hG _ _) (hG _ _)) ?_
        fun e _ _ => .error
      · exact ((h₁.2 headBefore rfl).le h₂.1).le h₃.1
      · exact fun _ _ _ _ _ => sat_throw_seen .error

theorem sat_advanceBranchHeadFf {newHead : OpId} :
    Sat (spec env G) i (Seen i w Anyhow) (advanceBranchHeadFf branch newHead).run w := by
  refine sat_then_seen (sat_readHead.mono fun _ _ h => h.1) ?_ fun e => trivial
  intro current w₁ h₁
  cases current with
  | none =>
    refine sat_then_seen (sat_query.mono fun _ _ h => h.1) ?_ fun e => trivial
    intro _ w₂ h₂
    refine sat_atom fun w₃ h₃ hwf ok hpromised => ?_
    cases ok with
    | false =>
      exact ⟨.still hwf rfl of_unseen, of_unseen, fun w'' hgrew _ => ⟨_, hgrew, trivial⟩⟩
    | true =>
      have hknown : (w₃.state.log.get newHead).isSome = true := hpromised _ rfl
      refine ⟨.writeBranch hwf rfl ?_ ⟨rfl, rfl, fun cur hcur => by cases hcur⟩, ?_, ?_⟩
      · intro head hhead
        rw [← Option.some.inj hhead]
        exact Option.isSome_iff_ne_none.mp hknown
      · exact fun event _ => hG _ event
      · exact fun w'' hgrew _ => ⟨_, hgrew, trivial⟩
  | some cur =>
    simp only
    split
    · exact sat_pure_seen trivial
    · refine sat_bind sat_query ?_ fun e w₂ h => .of_unseen h.1 trivial
      rintro isFf w₂ ⟨h₂, hread⟩
      obtain ⟨hwf₂, hff⟩ := hread isFf rfl
      refine (?_ : Sat (spec env G) i (Seen i w₂ Anyhow) _ w₂).mono
        fun _ _ h => h.after_unseen h₂
      cases isFf with
      | false => exact sat_throw_seen trivial
      | true =>
        -- the walk found the branch's head below the new one
        have hany := Except.ok.inj hff
        rw [any_eq_true] at hany
        obtain ⟨record, hrecord, hcur⟩ := hany
        obtain ⟨hget, hreach⟩ := OpLog.mem_walkForward_iff.mp hrecord
        rw [of_decide_eq_true hcur] at hreach hget
        have hnewHead : w₂.state.log.get newHead ≠ none := by
          rcases Relation.ReflTransGen.cases_head hreach with rfl | ⟨parent, hedge, _⟩
          · rw [hget]
            exact Option.some_ne_none record
          · obtain ⟨stored, hstored, _⟩ := OpLog.edge_iff.mp hedge
            rw [hstored]
            exact Option.some_ne_none stored
        refine sat_then_seen (sat_query.mono fun _ _ h => h.1) ?_ fun e => trivial
        intro _ w₃ h₃
        refine sat_bind_seen (sat_setBranchHeadOp (h₃.1.get_ne_none hnewHead) (fun _ => rfl) ?_
          of_unseen (fun _ => hG _ _) of_unseen) ?_ fun e _ _ => trivial
        · intro store hle _ _
          refine ⟨rfl, rfl, fun cur' hcur' => ?_⟩
          rw [← Option.some.inj hcur']
          exact (h₃.1.trans hle).reach hreach
        · exact fun _ _ _ _ _ => sat_pure_seen trivial

omit hG in
/-- **The report of a merge**, seen with the heads it was computed from. -/
theorem sat_storeMerge {src dst : BranchName}
    (hreport : ∀ srcHead dstHead log, G i (own i w.trace) (.reported src dst srcHead dstHead log)) :
    Sat (spec env G) i
      (Seen i w fun result events =>
        match result with
        | .ok report => ∃ semantic srcHead dstHead log,
            events = [.reported src dst srcHead dstHead log] ∧
              report = mergeReport semantic log src dst srcHead dstHead
        | .error _ => events = [])
      (Store.merge env src dst).run w := by
  refine sat_then_seen (sat_readHead.mono fun _ _ h => h.1) ?_ fun e => rfl
  intro srcHead w₁ h₁
  refine sat_then_seen (sat_query.mono fun _ _ h => h.1) ?_ fun e => rfl
  intro dstHead w₂ h₂
  refine sat_still (fun _ => rfl) ?_ ?_ ?_ (fun _ => rfl) ?_
  · intro ok store
    cases ok <;> rfl
  · intro ok store _ event hevent
    cases ok with
    | false => cases hevent
    | true =>
      rw [← Option.some.inj hevent]
      exact rfl
  · intro ok store event hevent
    rw [h₂.own_eq, h₁.own_eq]
    cases ok with
    | false => cases hevent
    | true =>
      rw [← Option.some.inj hevent]
      exact hreport _ _ _
  · exact fun store => ⟨_, srcHead, dstHead, store.log, rfl, rfl⟩

theorem sat_createBranch {name source : BranchName} :
    Sat (spec env G) i (Seen i w Anyhow) (createBranch name source).run w := by
  unfold createBranch
  have hrest : Sat (spec env G) i (Seen i w Anyhow)
      (do
        query fun store =>
          if (store.getBranch name).isSome then
            .error (.invalidTransition ("branch `" ++ name ++ "` already exists"))
          else .ok ()
        let headOp ← readHead source
        access
          (fun store =>
            (.ok (), store.writeBranch name
              { name, parent := some source, headOp, merges := [], lastGateCheckpoint := none }))
          fun ok store =>
            if ok then some (.created name (store.headOp name) headOp) else none : StoreProg Unit).run
      w := by
    refine sat_then_seen (sat_query.mono fun _ _ h => h.1) ?_ fun e => trivial
    intro _ w₁ h₁
    refine sat_bind sat_readHead ?_ fun e w₂ h => .of_unseen h.1 trivial
    rintro headOp w₂ ⟨h₂, hlogged⟩
    refine sat_atom fun w₃ h₃ hwf ok _ => ?_
    cases ok with
    | false =>
      exact ⟨.still hwf rfl of_unseen, of_unseen, fun w'' hgrew _ => ⟨_, h₂.trans hgrew, trivial⟩⟩
    | true =>
      refine ⟨.writeBranch hwf rfl ?_ rfl, fun event _ => hG _ event, ?_⟩
      · exact fun head hhead => ((hlogged headOp rfl).le h₃.1) head hhead
      · exact fun w'' hgrew _ => ⟨_, h₂.trans hgrew, trivial⟩
  split
  · exact sat_throw_seen trivial
  · exact hrest

omit hG in
/-- A quarantine is not seen: it moves no head. -/
theorem sat_retroBlock {toolId : ToolId} {reason : String} :
    Sat (spec env G) i (Seen i w Anyhow) (retroBlock toolId reason).run w := by
  refine sat_then_seen (sat_update (fun _ => rfl) (fun _ _ => rfl) fun _ => rfl) ?_ fun e => trivial
  intro _ w₁ _
  have hheads : ∀ (store : Store) branch,
      store.invalidateGateCheckpoints.headOp branch = store.headOp branch := by
    intro store branch
    unfold Store.headOp Store.getBranch Store.invalidateGateCheckpoints
    simp only [Std.ExtTreeMap.getElem?_map]
    cases store.branches[branch]? <;> rfl
  have hforget : Sat (spec env G) i (fun _ w' => Grew i [] w₁ w')
      (update Store.invalidateGateCheckpoints).run w₁ :=
    sat_update (fun _ => rfl) hheads fun _ => rfl
  exact hforget.mono fun _ _ h => .of_unseen h trivial

/-- A call on a branch: what it acknowledges, it has landed there and not taken back. -/
theorem sat_callOn {call : Call} (hbranch : call.branch = some branch) :
    Sat (spec env G) i (Seen i w (Acknowledges Outcome.ids branch)) (call.prog env).run w := by
  have hsilent : ∀ {ρ : Type} {p : StoreProg ρ} {f : ρ → Outcome}, (∀ a, (f a).ids = []) →
      Sat (spec env G) i (Seen i w Anyhow) p.run w →
        Sat (spec env G) i (Seen i w (Acknowledges Outcome.ids branch)) (f <$> p).run w := by
    intro ρ p f hf hp
    refine sat_map hf (hp.mono fun result w' h => ?_)
    obtain ⟨events, hgrew, _⟩ := h
    exact ⟨events, hgrew, .silent⟩
  have hwriter : call.isWriter = true → Sat (spec env G) i
      (Seen i w (Acknowledges Outcome.ids branch)) (call.prog env).run w :=
    fun h => sat_writer (fun _ _ _ => hG _ _) h hbranch
  cases call with
  | applyMergeOpGated b op t =>
    obtain rfl := Option.some.inj hbranch
    refine sat_map (fun _ => rfl)
      ((sat_applyMergeOpGated (mayMerge_of_unguarded hG op t _)).mono ?_)
    rintro result w' ⟨events, hgrew, hshape⟩
    exact ⟨events, hgrew, acknowledges_merge hshape⟩
  | applyMergeOpGatedWithManifest b op t manifest intentId =>
    obtain rfl := Option.some.inj hbranch
    exact sat_map (fun _ => rfl) (sat_applyMergeOpGatedWithManifest hG)
  | applySetFiles b manifest intentId =>
    obtain rfl := Option.some.inj hbranch
    refine sat_map (fun _ => rfl) ((sat_applySetFiles hG).mono ?_)
    rintro result w' ⟨events, hgrew, hshape⟩
    exact ⟨events, hgrew, acknowledges_landed hshape⟩
  | advanceBranchHeadFf b newHead =>
    obtain rfl := Option.some.inj hbranch
    exact hsilent (fun _ => rfl) (sat_advanceBranchHeadFf hG)
  | reportAndCommit src b =>
    obtain rfl := Option.some.inj hbranch
    have hcommit : Sat (spec env G) i (Seen i w Anyhow)
        (Store.merge env src b >>= LexLang.commitMerge env b).run w := by
      refine sat_bind_seen (sat_storeMerge fun _ _ _ => hG _ _) ?_ fun _ _ _ => trivial
      exact fun report _ _ _ _ => sat_commitMerge (mayCommit_of_unguarded hG report _)
    have hmap := hsilent (fun _ => rfl : ∀ _, Outcome.done.ids = []) hcommit
    simpa only [Call.prog, bind_assoc, map_eq_pure_bind] using hmap
  | commitMerge b report =>
    obtain rfl := Option.some.inj hbranch
    have hcommit : Sat (spec env G) i (Seen i w Anyhow) (LexLang.commitMerge env b report).run w :=
      sat_commitMerge (mayCommit_of_unguarded hG report _)
    have hmap := hsilent (fun _ => rfl : ∀ _, Outcome.done.ids = []) hcommit
    simpa only [Call.prog, map_eq_pure_bind] using hmap
  | createBranch b source =>
    obtain rfl := Option.some.inj hbranch
    have hcreate : Sat (spec env G) i (Seen i w Anyhow) (LexLang.createBranch b source).run w :=
      sat_createBranch hG
    have hmap := hsilent (fun _ => rfl : ∀ _, Outcome.done.ids = []) hcreate
    simpa only [Call.prog, map_eq_pure_bind] using hmap
  | retroBlock toolId reason => cases hbranch
  | _ => exact hwriter rfl

/-- **Every call.** -/
theorem Call.conduct (call : Call) : Sat (spec env G) i (fun result w' => ∀ branch, call.branch = some branch →
        Seen i w (Acknowledges Outcome.ids branch) result w') (call.prog env).run w := by
  cases hbranch : call.branch with
  | some branch =>
    refine (sat_callOn hG hbranch).mono fun result w' h other hother => ?_
    rw [← Option.some.inj hother]
    exact h
  | none =>
    cases call with
    | retroBlock toolId reason =>
      have hblock : Sat (spec env G) i (fun _ _ => True)
          (LexLang.retroBlock toolId reason >>= fun _ => pure Outcome.done).run w :=
        sat_bind (sat_retroBlock.mono fun _ _ _ => trivial)
          (fun _ _ _ => trivial) fun _ _ _ => trivial
      exact hblock.mono fun _ _ _ _ h => by cases h
    | _ => cases hbranch

end Unguarded

end Rules

/-! ## Callers -/

/-- **Callers of one store**, each about to make its call. -/
def callers {ι : Type} (env : Env) (store : Store) (calls : ι → Call) :
    Config ι Store Event Bool (Except StoreError Outcome) where
  world := { state := store, trace := [] }
  pool := fun i => ((calls i).prog env).run

section Callers

variable {ι : Type} [DecidableEq ι] {env : Env} {store : Store} {calls : ι → Call}

/-- **Every event of a sound pool is one its caller's guard lets through**, after what the caller was
seen doing before. -/
theorem guard_exec {ρ : Type} {G : ι → List Event → Event → Prop}
    {Q : ι → ρ → World ι Store Event → Prop} {c : Config ι Store Event Bool ρ}
    (hsound : c.Sound (spec env G) Q) (hstart : c.world.trace = []) (schedule : List (ι × Bool))
    (hpromised : AllMeet (fun _ _ event => event.Promised) (c.exec schedule).world.trace)
    {newer older : List (ι × Event)} {i : ι} {event : Event}
    (htrace : (c.exec schedule).world.trace = newer ++ (i, event) :: older) : G i (own i older) event := by
  have hkeeps : ∀ i (w w' : World ι Store Event) (label : Option Event),
      w.state.WellFormed env.digest → w'.state.WellFormed env.digest → (spec env G).guar i w w' →
      w'.trace = label.toList.map (Prod.mk i) ++ w.trace →
      AllMeet (fun _ _ event => event.Promised) w'.trace →
        (∀ newer j event older, w.trace = newer ++ (j, event) :: older → G j (own j older) event) →
          ∀ newer j event older, w'.trace = newer ++ (j, event) :: older →
            G j (own j older) event := by
    rintro i w w' _ _ _ ⟨label, htrace, _, hguard⟩ _ _ hbefore newer j event older hsplit
    rw [htrace] at hsplit
    cases label with
    | none => exact hbefore newer j event older hsplit
    | some first =>
      cases newer with
      | nil =>
        obtain ⟨hentry, rfl⟩ := List.cons.inj hsplit
        obtain ⟨rfl, rfl⟩ := Prod.mk.inj hentry
        exact hguard first rfl
      | cons entry newer => exact hbefore newer j event older (List.cons.inj hsplit).2
  refine hsound.keeps hkeeps ?_ schedule hpromised hpromised newer i event older htrace
  intro newer j event older hsplit
  rw [hstart] at hsplit
  simp at hsplit

/-- **What was seen landing is in the log**, as it was filed then. -/
theorem filed_exec {ρ : Type} {G : ι → List Event → Event → Prop}
    {Q : ι → ρ → World ι Store Event → Prop} {c : Config ι Store Event Bool ρ}
    (hsound : c.Sound (spec env G) Q) (hstart : c.world.trace = []) (schedule : List (ι × Bool))
    (hpromised : AllMeet (fun _ _ event => event.Promised) (c.exec schedule).world.trace) {i : ι}
    {parent : Option OpId} {record filed : OperationRecord}
    (hlanded : (i, .landed branch parent record filed) ∈ (c.exec schedule).world.trace) :
    (c.exec schedule).world.state.log.get record.opId = some filed := by
  have hkeeps : ∀ i (w w' : World ι Store Event) (label : Option Event),
      w.state.WellFormed env.digest → w'.state.WellFormed env.digest → (spec env G).guar i w w' →
      w'.trace = label.toList.map (Prod.mk i) ++ w.trace →
      AllMeet (fun _ _ event => event.Promised) w'.trace →
        (∀ j branch parent record filed, (j, .landed branch parent record filed) ∈ w.trace →
          w.state.log.get record.opId = some filed) →
        ∀ j branch parent record filed, (j, .landed branch parent record filed) ∈ w'.trace →
          w'.state.log.get record.opId = some filed := by
    rintro i w w' _ _ _ ⟨label, htrace, hobserved, _⟩ _ _ hbefore j branch parent record filed hmem
    rw [htrace] at hmem
    refine hobserved.grows _ _ ?_
    rcases mem_append.mp hmem with hnew | hold
    · obtain ⟨event, hevent, hentry⟩ := mem_map.mp hnew
      obtain ⟨_, rfl⟩ := Prod.mk.inj hentry
      exact (hobserved.holds _ (Option.mem_toList.mp hevent)).2.1
    · exact hbefore j branch parent record filed hold
  refine hsound.keeps hkeeps ?_ schedule hpromised hpromised i branch parent record filed hlanded
  intro j branch parent record filed hmem
  rw [hstart] at hmem
  cases hmem

/-- Callers that make any calls keep the contract. -/
theorem callers_sound (hwf : store.WellFormed env.digest) :
    (callers env store calls).Sound (spec env fun _ _ _ => True) fun i result w' =>
      ∀ branch, (calls i).branch = some branch →
        Seen i { state := store, trace := [] } (Acknowledges Outcome.ids branch) result w' :=
  ⟨hwf, fun i => ⟨_, Grew.refl i _, Call.conduct (fun _ _ => trivial) (calls i)⟩⟩

/-- **What a caller was told**, it was seen landing, and not taking back. -/
theorem stillLanded_of_returned (hwf : store.WellFormed env.digest) {schedule : List (ι × Bool)}
    (hpromised : AllMeet (fun _ _ event => event.Promised) ((callers env store calls).exec schedule).world.trace)
    {i : ι} (hbranch : (calls i).branch = some branch) {outcome : Outcome}
    (hreturned : (((callers env store calls).exec schedule).pool i).returned = some (.ok outcome))
    {id : OpId} (hid : id ∈ outcome.ids) :
    StillLanded branch id (own i ((callers env store calls).exec schedule).world.trace) := by
  obtain ⟨_, hthreads⟩ := (callers_sound hwf).exec schedule hpromised
  obtain ⟨w, hrely, hsat⟩ := hthreads i
  rw [Prog.eq_ret_of_returned hreturned] at hsat
  obtain ⟨events, hgrew, hshape⟩ := hsat branch hbranch
  rw [hrely.own_eq, hgrew.2]
  exact (hshape outcome rfl id hid).earlier

end Callers

end LexLang
