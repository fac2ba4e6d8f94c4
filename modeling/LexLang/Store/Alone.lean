/-
# LexLang.Store.Alone — the write paths of a single writer

What a caller finds and leaves when no other caller's steps fall between its own, whatever the
environment answers to its reads and writes. `Beside` says what every refused write leaves alone,
and `casRetryAdvance_alone` what the retry loop comes to.
-/
import LexLang.Store.Landing

namespace LexLang

open LexLang.Vcs LexLang.Concurrent
open Option

/-! ## Programs that may fail -/

section Rules

variable {ρ ρ' : Type} {store : Store}

/-- What has to hold before a program runs alone, for `Q` to hold of how it ends. -/
def Alone (p : StoreProg ρ) (Q : Except StoreError ρ → Store → Prop) (store : Store) : Prop :=
  p.run.wp Q store

variable {p : StoreProg ρ} {Q Q' : Except StoreError ρ → Store → Prop}

theorem Alone.mono (h : Alone p Q store) (hQ : ∀ result after, Q result after → Q' result after) :
    Alone p Q' store := Prog.wp.mono h hQ

/-- **Sequencing**: an error ends the program. -/
theorem alone_bind {f : ρ → StoreProg ρ'} {Q : Except StoreError ρ' → Store → Prop} :
    Alone (p >>= f) Q store ↔
      Alone p
        (fun result after =>
          match result with
          | .ok a => Alone (f a) Q after
          | .error e => Q (.error e) after)
        store := by
  unfold Alone
  rw [ExceptT.run_bind, Prog.wp_bind]
  constructor
  all_goals
    intro h
    refine h.mono fun result after hresult => ?_
    cases result <;> exact hresult

/-- **One access**: nothing changes when the I/O fails. -/
theorem alone_access {act : Store → Except StoreError ρ × Store} {label : Bool → Store → Option Event} :
    Alone (access act label) Q store ↔ Q (.error .io) store ∧ Q (act store).1 (act store).2 := by
  constructor
  · exact fun h => ⟨h false, h true⟩
  · rintro ⟨hfalse, htrue⟩ (_ | _)
    · exact hfalse
    · exact htrue

theorem alone_query {read : Store → Except StoreError ρ} :
    Alone (query read) Q store ↔ Q (.error .io) store ∧ Q (read store) store := alone_access

theorem alone_update {write : Store → Store} {Q : Except StoreError Unit → Store → Prop} :
    Alone (update write) Q store ↔ Q (.error .io) store ∧ Q (.ok ()) (write store) := alone_access

/-- An error that is kept as a value. -/
theorem alone_attempt {Q : Except StoreError (Except StoreError ρ) → Store → Prop} :
    Alone (attempt p) Q store ↔ Alone p (fun result after => Q (.ok result) after) store := by
  unfold Alone attempt
  rw [ExceptT.run_mk, Prog.wp_bind]
  rfl

end Rules

/-! ## What stays as it is -/

/-- **`after` is `before` but for what no head, checkpoint or ledger shows**: the log has grown,
attestations were added, stage files and snapshots written. -/
structure Beside (digest : Digest) (before after : Store) : Prop where
  wf : after.WellFormed digest
  log : before.log.Le after.log
  branches : after.branches = before.branches
  intents : after.intents = before.intents
  policy : after.policy = before.policy
  attestations : before.attestations ⊆ after.attestations

namespace Beside

variable {digest : Digest} {s s' s'' : Store}

theorem refl (hwf : s.WellFormed digest) : Beside digest s s :=
  ⟨hwf, OpLog.Le.refl _, rfl, rfl, rfl, List.Subset.refl _⟩

theorem trans (h : Beside digest s s') (h' : Beside digest s' s'') : Beside digest s s'' where
  wf := h'.wf
  log := h.log.trans h'.log
  branches := h'.branches.trans h.branches
  intents := h'.intents.trans h.intents
  policy := h'.policy.trans h.policy
  attestations := List.Subset.trans h.attestations h'.attestations

theorem getBranch (h : Beside digest s s') (name : BranchName) : s'.getBranch name = s.getBranch name := by
  unfold Store.getBranch
  rw [h.branches]

theorem headOp (h : Beside digest s s') (name : BranchName) : s'.headOp name = s.headOp name := by
  unfold Store.headOp
  rw [h.getBranch]

theorem of_attestations (hwf : s.WellFormed digest) {attestations : AttestationLog}
    (h : s.attestations ⊆ attestations) : Beside digest s { s with attestations } :=
  ⟨hwf.congr rfl (fun _ => rfl) rfl, OpLog.Le.refl _, rfl, rfl, rfl, h⟩

theorem of_headView (hwf : s.WellFormed digest) {name : BranchName} {map : HeadMap}
    (h : s.headView name = .ok (map, s')) : Beside digest s s' := by
  obtain ⟨_, hwf', snapshots, rfl⟩ := hwf.headView h
  exact ⟨hwf', OpLog.Le.refl _, rfl, rfl, rfl, List.Subset.refl _⟩

end Beside

/-! ## The building blocks -/

section Blocks

variable {env : Env} {branch : BranchName} {store : Store}

/-- How a block that only works beside the heads ends. -/
abbrev Aside (env : Env) (store : Store) {ρ : Type} (_ : Except StoreError ρ) (after : Store) : Prop :=
  Beside env.digest store after

/-- Work beside the heads, and then the rest from there. -/
theorem alone_aside {ρ ρ' : Type} {p : StoreProg ρ} {f : ρ → StoreProg ρ'}
    {Q : Except StoreError ρ' → Store → Prop} (hp : Alone p (Aside env store) store)
    (hok : ∀ a after, Beside env.digest store after → Alone (f a) Q after)
    (herror : ∀ e after, Beside env.digest store after → Q (.error e) after) : Alone (p >>= f) Q store := by
  refine alone_bind.mpr (hp.mono fun result after h => ?_)
  cases result with
  | ok a => exact hok a after h
  | error e => exact herror e after h

theorem readHead_alone : Alone (readHead branch)
      (fun result after => after = store ∧ ∀ head, result = .ok head → head = store.headOp branch) store :=
  alone_query.mpr ⟨⟨rfl, fun _ h => by cases h⟩, rfl, fun _ h => (Except.ok.inj h).symm⟩

theorem putAttestations_alone (hwf : store.WellFormed env.digest) (stamps : List (Nat → Attestation)) :
    Alone (putAttestations stamps) (Aside env store) store := by
  induction stamps generalizing store with
  | nil => exact .refl hwf
  | cons stamp stamps ih =>
    have hput : Beside env.digest store
        { store with attestations := store.attestations.put (stamp store.clock) } :=
      .of_attestations hwf (AttestationLog.subset_put _ _)
    refine alone_bind.mpr (alone_update.mpr ⟨.refl hwf, ?_⟩)
    exact (ih hput.wf).mono fun _ _ h => hput.trans h

/-- The gate on an operation passed, with the attestations of the store it read. -/
def GatePassed (store : Store) (branch : BranchName) (opId : OpId) (stageIds : List StageId)
    (effects : EffectSet) : Prop :=
  ∃ waivers, store.runRequiredAttestationsGate branch opId stageIds effects = .ok waivers

theorem gate_alone (hwf : store.WellFormed env.digest) (opId : OpId) (stageIds : List StageId) (effects : EffectSet) :
    Alone (gate branch opId stageIds effects) (fun result after => Beside env.digest store after ∧
        (result = .ok () → GatePassed store branch opId stageIds effects)) store := by
  refine alone_bind.mpr (alone_query.mpr ⟨⟨.refl hwf, fun h => by cases h⟩, ?_⟩)
  cases hgate : store.runRequiredAttestationsGate branch opId stageIds effects with
  | error e => exact ⟨.refl hwf, fun h => by cases h⟩
  | ok waivers =>
    exact (putAttestations_alone hwf _).mono fun _ _ h => ⟨h, fun _ => ⟨waivers, hgate⟩⟩

/-- **Persisting** only adds to the log. -/
theorem persist_alone (hwf : store.WellFormed env.digest) {parent : Option OpId}
    (hparent : Logged store.log parent) {op : Operation} {transition : StageTransition} :
    Alone (persistOpOnlyWithParent env branch parent op transition)
      (fun result after => Beside env.digest store after ∧ ∀ record, result = .ok record →
        record = .new env.digest op transition ∧ after.log = store.log.put record ∧
          checkParents store.log parent op.parents = .ok ()) store := by
  refine alone_access.mpr ⟨⟨.refl hwf, fun _ h => by cases h⟩, ?_⟩
  by_cases hexists : branch ≠ defaultBranch ∧ store.getBranch branch = none
  · rw [if_pos hexists]
    exact ⟨.refl hwf, fun _ h => by cases h⟩
  · rw [if_neg hexists]
    cases happly : apply env.digest store.log parent op transition with
    | error e => exact ⟨.refl hwf, fun _ h => by cases h⟩
    | ok applied =>
      obtain ⟨record, log⟩ := applied
      obtain ⟨hcheck, hrecord, rfl⟩ := apply_eq_ok env.digest happly
      have hdigest : record.op.opId env.digest = record.opId := by
        rw [hrecord]
        rfl
      have hlogged : ∀ p ∈ record.op.parents, store.log.get p ≠ none := by
        rw [hrecord]
        exact checkParents_logged hcheck hparent
      refine ⟨⟨hwf.put hdigest hlogged, OpLog.le_put _ _, rfl, rfl, rfl, List.Subset.refl _⟩, ?_⟩
      intro record' h
      obtain rfl := Except.ok.inj h
      exact ⟨hrecord, rfl, hcheck⟩

/-- The swap writes the branch file, or nothing. -/
theorem casWrite_cases (store : Store) (branch : BranchName) (expected : Option OpId) (new : OpId) :
    store.casOutcome branch expected = .ok ∧ (∃ file, store.branchToAdvance branch = some file ∧
        store.casWrite branch expected new = store.writeBranch branch (file.advance new)) ∨
      store.casOutcome branch expected ≠ .ok ∧ store.casWrite branch expected new = store := by
  unfold Store.casWrite
  by_cases hok : store.casOutcome branch expected = .ok
  · left
    refine ⟨hok, ?_⟩
    have hfile : (store.branchToAdvance branch).isSome := by
      unfold Store.casOutcome at hok
      split at hok
      · cases hok
      · split at hok
        · assumption
        · cases hok
    obtain ⟨file, hfile⟩ := isSome_iff_exists.mp hfile
    rw [hok, hfile]
    exact ⟨file, rfl, rfl⟩
  · right
    refine ⟨hok, ?_⟩
    split
    · contradiction
    · rfl

theorem setBranchHeadOpCas_alone {expected : Option OpId} {record : OperationRecord}
    {Q : Except StoreError CasResult → Store → Prop} : Alone (setBranchHeadOpCas branch expected record) Q store ↔
      Q (.ok .io) store ∧
        Q (.ok (store.casOutcome branch expected)) (store.casWrite branch expected record.opId) := by
  constructor
  · exact fun h => ⟨h false, h true⟩
  · rintro ⟨hfalse, htrue⟩ (_ | _)
    · exact hfalse
    · exact htrue

end Blocks

/-! ## The loop -/

/-- **A landing**: an operation that was persisted on the head and let through by the hook is the
head now, and the checkpoint. -/
structure LandedAlone (env : Env) (branch : BranchName) (op : Operation) (transition : StageTransition)
    (passed : OperationRecord → Store → Prop) (before after : Store) (record : OperationRecord) :
    Prop where
  variant : Variant op record.op
  record_eq : record = .new env.digest record.op transition
  parents : ∃ log, before.log.Le log ∧ checkParents log (before.headOp branch) record.op.parents = .ok ()
  logged : ∀ p ∈ record.op.parents, before.log.get p ≠ none
  passed : ∃ store, Beside env.digest before store ∧ passed record store
  swapped : ∃ store file, Beside env.digest before store ∧ store.log.get record.opId ≠ none ∧
    store.branchToAdvance branch = some file ∧
      after = store.writeBranch branch (file.advance record.opId)

/-- How a write path ends when nobody else writes. -/
def LandsAlone (env : Env) (branch : BranchName) (op : Operation) (transition : StageTransition)
    (passed : OperationRecord → Store → Prop) (before : Store) (result : Except StoreError OpId)
    (after : Store) : Prop :=
  match result with
  | .ok id => ∃ record, record.opId = id ∧ LandedAlone env branch op transition passed before after record
  | .error _ => Beside env.digest before after

section Loop

variable {env : Env} {branch : BranchName} {store : Store} {op : Operation}
  {transition : StageTransition} {passed : OperationRecord → Store → Prop}
  {hook : OperationRecord → StoreProg Unit}

theorem LandedAlone.from {before mid after : Store} {record : OperationRecord}
    (h : LandedAlone env branch op transition passed mid after record)
    (hwf : before.WellFormed env.digest) (hbeside : Beside env.digest before mid)
    (hmerge : Operation.isRebuildable op = false → ∀ p ∈ op.parents, before.log.get p ≠ none) :
    LandedAlone env branch op transition passed before after record where
  variant := h.variant
  record_eq := h.record_eq
  parents := by
    obtain ⟨log, hle, hcheck⟩ := h.parents
    exact ⟨log, hbeside.log.trans hle, hbeside.headOp branch ▸ hcheck⟩
  logged := by
    obtain ⟨log, -, hcheck⟩ := h.parents
    have hparents := h.variant.parents
    cases hrebuildable : Operation.isRebuildable op with
    | true =>
      -- on the head and nothing else
      rw [if_pos hrebuildable] at hparents
      rw [checkParents_toList hcheck hparents, hbeside.headOp]
      intro p hp
      exact hwf.heads branch p (mem_toList.mp hp)
    | false =>
      rw [hrebuildable, if_neg (by simp)] at hparents
      rw [hparents]
      exact hmerge hrebuildable
  passed := by
    obtain ⟨store, hstore, hpassed⟩ := h.passed
    exact ⟨store, hbeside.trans hstore, hpassed⟩
  swapped := by
    obtain ⟨store, file, hstore, hrest⟩ := h.swapped
    exact ⟨store, file, hbeside.trans hstore, hrest⟩

theorem LandsAlone.from {before mid after : Store} {result : Except StoreError OpId}
    (h : LandsAlone env branch op transition passed mid result after)
    (hwf : before.WellFormed env.digest) (hbeside : Beside env.digest before mid)
    (hmerge : Operation.isRebuildable op = false → ∀ p ∈ op.parents, before.log.get p ≠ none) :
    LandsAlone env branch op transition passed before result after := by
  cases result with
  | ok id =>
    obtain ⟨record, hid, hlanding⟩ := h
    exact ⟨record, hid, hlanding.from hwf hbeside hmerge⟩
  | error e => exact hbeside.trans h

section

variable (hhook : ∀ record store, store.WellFormed env.digest → Alone (hook record) (fun result after =>
  Beside env.digest store after ∧ (result = .ok () → ∃ mid, Beside env.digest store mid ∧ passed record mid)) store)
include hhook

/-- **The loop alone**: what a failed attempt leaves is beside the heads, so the next one starts from
the head that the first one started from. -/
theorem casAttempts_alone (hwf : store.WellFormed env.digest) (attempts : Nat) (tried : Operation) (rebuiltAlready : Bool)
    (lastIoErr : Option StoreError) (htried : Variant op tried) :
    Alone (casAttempts env branch op transition hook attempts tried rebuiltAlready lastIoErr)
      (LandsAlone env branch op transition passed store) store := by
  induction attempts generalizing store tried rebuiltAlready lastIoErr with
  | zero => exact .refl hwf
  | succ attempts ih =>
    have hretry : ∀ {mid : Store} {tried rebuiltAlready lastIoErr}, Variant op tried →
        Beside env.digest store mid →
        (Operation.isRebuildable op = false → ∀ p ∈ op.parents, store.log.get p ≠ none) →
        Alone (casAttempts env branch op transition hook attempts tried rebuiltAlready lastIoErr)
          (LandsAlone env branch op transition passed store) mid :=
      fun hvariant hbeside hmerge =>
        (ih hbeside.wf _ _ _ hvariant).mono fun _ _ h => h.from hwf hbeside hmerge
    unfold casAttempts
    refine alone_bind.mpr (readHead_alone.mono ?_)
    rintro (e | parent) store ⟨rfl, hparent⟩
    · exact .refl hwf
    obtain rfl := hparent parent rfl
    have hvariant := htried.rebuild (store.headOp branch) rebuiltAlready
    refine alone_bind.mpr (alone_attempt.mpr ((persist_alone hwf (hwf.logged branch)).mono ?_))
    rintro (e | record) mid ⟨hmid, hpersisted⟩
    · show Alone (if _ then _ else _) _ _
      split
      · rename_i hstale
        refine hretry hvariant hmid fun hmerge => ?_
        simp [hmerge] at hstale
      · exact hmid
    obtain ⟨hrecord, hlog, hcheck⟩ := hpersisted record rfl
    have hlogged := checkParents_logged hcheck (hwf.logged branch)
    have hmerge : Operation.isRebuildable op = false → ∀ p ∈ op.parents, store.log.get p ≠ none := by
      intro hmerge
      have hparents := hvariant.parents
      rw [hmerge, if_neg (by simp)] at hparents
      rw [← hparents]
      exact hlogged
    refine alone_bind.mpr ((hhook record mid hmid.wf).mono ?_)
    rintro (e | _) gated ⟨hgated, hpassed⟩
    · exact hmid.trans hgated
    have hbeside := hmid.trans hgated
    refine alone_bind.mpr (setBranchHeadOpCas_alone.mpr ⟨hretry hvariant hbeside hmerge, ?_⟩)
    obtain ⟨hcas, file, hfile, hwrite⟩ | ⟨hcas, hwrite⟩ :=
      casWrite_cases gated branch (store.headOp branch) record.opId
    · rw [hcas, hwrite]
      obtain ⟨checked, hchecked, hpassed⟩ := hpassed rfl
      obtain ⟨filed, hfiled⟩ := OpLog.get_put_opId store.log record
      refine ⟨record, rfl, ?_, ?_, ⟨_, OpLog.Le.refl _, ?_⟩, ?_, ⟨checked, hmid.trans hchecked, hpassed⟩,
        ⟨gated, file, hbeside, ?_, hfile, rfl⟩⟩
      · rw [hrecord]
        exact hvariant
      · rw [hrecord]
        rfl
      · rw [hrecord]
        exact hcheck
      · rw [hrecord]
        exact hlogged
      · refine hgated.log.get_ne_none ?_
        rw [hlog, hfiled]
        exact some_ne_none filed
    · rw [hwrite]
      cases houtcome : gated.casOutcome branch (store.headOp branch) with
      | ok => exact absurd houtcome hcas
      | mismatch actual =>
        show Alone (if _ then _ else _) _ _
        split
        · exact hretry hvariant hbeside hmerge
        · exact hbeside
      | unknownBranch name => exact hbeside
      | io => exact hretry hvariant hbeside hmerge

theorem casRetryAdvance_alone (hwf : store.WellFormed env.digest) : Alone (casRetryAdvance env branch op transition hook)
      (LandsAlone env branch op transition passed store) store := by
  refine alone_bind.mpr (alone_query.mpr ⟨.refl hwf, ?_⟩)
  cases store.checkPairsSatisfiable (boundPairs transition) with
  | error e => exact .refl hwf
  | ok _ => exact casAttempts_alone hhook hwf _ _ _ _ (.refl op)

end

end Loop

/-! ## What a landing leaves -/

section Landed

variable {env : Env} {store after : Store} {branch : BranchName} {op : Operation}
  {transition : StageTransition} {passed : OperationRecord → Store → Prop} {record : OperationRecord}

theorem headOp_writeBranch (name other : BranchName) (branch : Branch) :
    (store.writeBranch name branch).headOp other =
      if name = other then branch.headOp else store.headOp other := Store.headOp_insert name other branch

/-- What a landing leaves: the log has grown, the intents and the policy are as they were, and one
head moved to an operation that is filed. -/
structure Advanced (env : Env) (branch : BranchName) (record : OperationRecord) (store after : Store) :
    Prop where
  wf : after.WellFormed env.digest
  log : store.log.Le after.log
  intents : after.intents = store.intents
  policy : after.policy = store.policy
  headOp : ∀ name, after.headOp name = if branch = name then some record.opId else store.headOp name
  filed : ∃ filed, after.log.get record.opId = some filed ∧ filed.op.kind = record.op.kind ∧
    filed.op.intentId = record.op.intentId ∧ ∀ p, p ∈ filed.op.parents ↔ p ∈ record.op.parents

theorem LandedAlone.advanced (h : LandedAlone env branch op transition passed store after record) :
    Advanced env branch record store after := by
  obtain ⟨mid, file, hmid, hlogged, -, rfl⟩ := h.swapped
  have hid : record.op.opId env.digest = record.opId := by
    rw [h.record_eq]
    rfl
  obtain ⟨filed, hfiled⟩ := ne_none_iff_exists'.mp hlogged
  have hsame : filed.op.opId env.digest = record.op.opId env.digest :=
    (hmid.wf.hashed record.opId filed hfiled).trans hid.symm
  obtain ⟨hkind, -, hintent⟩ := (opId_eq_iff env.digest _ _).mp hsame
  refine ⟨hmid.wf.writeBranch fun head hhead => ?_, hmid.log, hmid.intents, hmid.policy, fun name => ?_,
    filed, hfiled, hkind, hintent, fun p => mem_parents_of_hashed hmid.wf.hashed hfiled hid⟩
  · rw [← some.inj hhead]
    exact hlogged
  · rw [headOp_writeBranch, hmid.headOp]
    rfl

end Landed

/-! ## Single operations -/

section Calls

variable {env : Env} {branch : BranchName} {store : Store} {op : Operation}
  {transition : StageTransition}

/-- The hook of the gated write path. -/
theorem recordAndGate_alone (hwf : store.WellFormed env.digest) (stageIds : List StageId)
    (opId : OpId) (effects : EffectSet) :
    Alone (do
        recordTypecheckPassed stageIds opId
        gate branch opId stageIds effects)
      (fun result after => Beside env.digest store after ∧
        (result = .ok () → ∃ mid, Beside env.digest store mid ∧
          GatePassed mid branch opId stageIds effects)) store := by
  refine alone_aside (putAttestations_alone hwf _) (fun _ mid hmid => ?_)
    fun e mid hmid => ⟨hmid, fun h => by cases h⟩
  exact (gate_alone hmid.wf _ _ _).mono fun _ _ h =>
    ⟨hmid.trans h.1, fun hok => ⟨mid, hmid, h.2 hok⟩⟩

end Calls

end LexLang
