/-
# LexLang.Attest.Decisions — which decision counts

A log keeps the first attestation of each id, and the id leaves the timestamp out. So a decision
taken a second time, with the payload it had before, is not recorded, and what counts is the last
decision that was new.
-/
import LexLang.Attest.Log

namespace LexLang.Attest

open LexLang.Vcs (StageId)
open List Option

/-! ## The last outcome -/

variable {listed : List Attestation}

section Outcomes

variable {δ : Type} (outcome : Attestation → Option δ)

/-- The last outcome of a list. -/
def lastOutcome (atts : List Attestation) : Option δ := (atts.filterMap outcome).getLast?

/-- **A repeated decision never goes against the one before it**: at each step the decision has an id
that was not issued yet, or the outcome of the last decision. -/
def NoStaleRepeat (issued : List Attestation) : Prop :=
  ∀ before a after, issued = before ++ a :: after → (outcome a).isSome →
    a.attestationId ∉ before.map Attestation.attestationId ∨ lastOutcome outcome before = outcome a

variable {outcome}

theorem lastOutcome_append_singleton (atts : List Attestation) (a : Attestation) :
    lastOutcome outcome (atts ++ [a]) = (outcome a).or (lastOutcome outcome atts) := by
  unfold lastOutcome
  rw [filterMap_append]
  cases h : outcome a with
  | none => simp [h]
  | some d => simp [h]

/-- **The last new decision is the last one at every point exactly where no repeat goes against the
decision before it.** -/
theorem lastFirst_eq_last_iff (issued : List Attestation) : (∀ before after, issued = before ++ after →
        lastOutcome outcome (firsts before) = lastOutcome outcome before) ↔ NoStaleRepeat outcome issued := by
  constructor
  · intro h before a after heq hdecides
    by_cases hold : a.attestationId ∈ before.map Attestation.attestationId
    · right
      have hbefore := h before (a :: after) heq
      have hafter := h (before ++ [a]) after (by simp [heq])
      rw [firsts_append_singleton, if_pos (mem_ids_firsts.mpr hold), hbefore, lastOutcome_append_singleton] at hafter
      obtain ⟨d, hd⟩ := isSome_iff_exists.mp hdecides
      rw [hafter, hd]
      rfl
    · exact .inl hold
  · intro h before
    induction before using reverseRecOn with
    | nil => exact fun _ _ => rfl
    | append_singleton before a ih =>
      intro after heq
      have heq' : issued = before ++ a :: after := by simpa using heq
      have hbefore := ih (a :: after) heq'
      rw [firsts_append_singleton, lastOutcome_append_singleton]
      cases hoa : outcome a with
      | none =>
        rw [none_or]
        split
        · exact hbefore
        · rw [lastOutcome_append_singleton, hoa, none_or]
          exact hbefore
      | some d =>
        rw [some_or]
        split
        · next hold =>
          have hsame := h before a after heq' (by rw [hoa]; rfl)
          rcases hsame with hnew | hsame
          · exact absurd (mem_ids_firsts.mp hold) hnew
          · rw [hbefore, hsame, hoa]
        · rw [lastOutcome_append_singleton, hoa, some_or]

variable {atts : List Attestation}

theorem lastOutcome_eq_none_iff : lastOutcome outcome atts = none ↔ ∀ a ∈ atts, outcome a = none := by
  rw [lastOutcome, getLast?_eq_none_iff, filterMap_eq_nil_iff]

/-- The last decision, and that those before it are before it. -/
theorem exists_of_lastOutcome_eq_some {d : δ} (h : lastOutcome outcome atts = some d) :
    ∃ before a after, atts = before ++ a :: after ∧ outcome a = some d ∧ ∀ b ∈ after, outcome b = none := by
  induction atts using reverseRecOn with
  | nil => cases h
  | append_singleton atts b ih =>
    rw [lastOutcome_append_singleton] at h
    cases hb : outcome b with
    | some d' =>
      rw [hb, some_or] at h
      exact ⟨atts, b, [], rfl, hb.trans h, fun _ hmem => nomatch hmem⟩
    | none =>
      rw [hb, none_or] at h
      obtain ⟨before, a, after, rfl, ha, hafter⟩ := ih h
      refine ⟨before, a, after ++ [b], by simp, ha, fun b' hb' => ?_⟩
      rcases mem_append.mp hb' with hb' | hb'
      · exact hafter b' hb'
      · rw [mem_singleton.mp hb']
        exact hb

theorem lastOutcome_firsts_eq_none_iff {issued : List Attestation}
    (hpayload : ∀ a ∈ issued, ∀ b ∈ issued, a.attestationId = b.attestationId → outcome a = outcome b) :
    lastOutcome outcome (firsts issued) = none ↔ lastOutcome outcome issued = none := by
  rw [lastOutcome_eq_none_iff, lastOutcome_eq_none_iff]
  constructor
  · intro h a ha
    obtain ⟨b, hb, hid⟩ := List.mem_map.mp (mem_ids_firsts.mpr (List.mem_map_of_mem ha))
    have hsame := hpayload a ha b ((firsts_sublist issued).subset hb) hid.symm
    rw [hsame]
    exact h b hb
  · intro h a ha
    exact h a ((firsts_sublist issued).subset ha)

/-- **The latest by timestamp is the last one**, of a list whose decisions have increasing timestamps,
in whatever order it is read. -/
theorem latestDecision_eq_lastOutcome {decision : AttestationKind → Option δ} {lifts : δ → Bool}
    {chosen : Attestation → Bool} (houtcome : ∀ a, outcome a = if chosen a then decision a.kind else none)
    (hlisted : listed.Perm (atts.filter chosen)) (hincreasing : (atts.filter fun a => (outcome a).isSome).Pairwise
      fun a b => a.timestamp < b.timestamp) : ((latestDecision decision lifts listed).bind fun a => decision a.kind) =
      lastOutcome outcome atts := by
  have hmem : ∀ a, a ∈ listed ↔ a ∈ atts ∧ chosen a = true := fun a => by
    rw [hlisted.mem_iff, mem_filter]
  cases hlast : lastOutcome outcome atts with
  | none =>
    have hnone := lastOutcome_eq_none_iff.mp hlast
    have hread : ∀ a ∈ listed, decision a.kind = none := by
      intro a ha
      obtain ⟨hin, hchosen⟩ := (hmem a).mp ha
      rw [← hnone a hin, houtcome, if_pos hchosen]
    rw [latestDecision_eq_none hread]
    rfl
  | some d =>
    obtain ⟨before, a, after, hatts, ha, hafter⟩ := exists_of_lastOutcome_eq_some hlast
    have hchosen : chosen a = true := by
      by_contra hnot
      rw [houtcome, if_neg hnot] at ha
      cases ha
    have hdecides : decision a.kind = some d := by
      rw [← ha, houtcome, if_pos hchosen]
    have hin : a ∈ listed := (hmem a).mpr ⟨by simp [hatts], hchosen⟩
    -- every other decision is before it, and so older
    have holder : ∀ b ∈ listed, (decision b.kind).isSome → b = a ∨ b.timestamp < a.timestamp := by
      intro b hb hsome
      obtain ⟨hbin, hbchosen⟩ := (hmem b).mp hb
      have hbout : (outcome b).isSome := by
        rw [houtcome, if_pos hbchosen]
        exact hsome
      rw [hatts, mem_append, mem_cons] at hbin
      rcases hbin with hbefore | rfl | hbafter
      · right
        rw [hatts, filter_append, pairwise_append] at hincreasing
        apply hincreasing.2.2 b (mem_filter.mpr ⟨hbefore, hbout⟩) a
        exact mem_filter.mpr ⟨mem_cons_self, by rw [ha]; rfl⟩
      · exact .inl rfl
      · rw [hafter b hbafter] at hbout
        cases hbout
    rw [latestDecision_eq_some hin (by rw [hdecides]; rfl) holder]
    exact hdecides

end Outcomes

/-! ## The three kinds of decision -/

/-- A decision about a stage: whether it blocks it. -/
def stageDecision (stage : StageId) (a : Attestation) : Option Bool :=
  if a.stageId = stage then a.kind.blocks else none

/-- A decision about a producer: its cut-off, or none when it lifts the block. -/
def producerDecision (toolId : String) (a : Attestation) : Option (Option Nat) :=
  a.kind.cutOff toolId

/-- A review of a stage by one reviewer: which it is. -/
def reviewDecision (stage : StageId) (reviewer : String) (a : Attestation) : Option AttestationId :=
  match a.kind with
  | .review r _ _ => if a.stageId = stage ∧ r = reviewer then some a.attestationId else none
  | _ => none

/-- **What is issued**, one after another: ids are the payloads', and the decisions about one stage
and about one producer have increasing timestamps. Anything else comes in between. -/
structure Issued where
  attestations : List Attestation
  identified : Identified attestations
  stageIncreasing : ∀ stage, (attestations.filter fun a => (stageDecision stage a).isSome).Pairwise
    fun a b => a.timestamp < b.timestamp
  producerIncreasing : ∀ toolId,
    (attestations.filter fun a => (producerDecision toolId a).isSome).Pairwise
      fun a b => a.timestamp < b.timestamp

/-- A stage is blocked where its latest decision blocks it. -/
theorem isStageBlocked_eq_true_iff (attestations : List Attestation) : isStageBlocked attestations = true ↔
      ((latestDecision AttestationKind.blocks (fun blocked => !blocked) attestations).bind
        fun a => a.kind.blocks) = some true := by
  unfold isStageBlocked
  cases latestDecision AttestationKind.blocks (fun blocked => !blocked) attestations with
  | none => simp
  | some a =>
    rw [map_some, bind_some]
    cases a.kind <;> simp [AttestationKind.blocks]

/-- A producer is blocked from the cut-off of its latest decision, if that is a block. -/
theorem activeProducerBlock_eq (attestations : List Attestation) (toolId : String) :
    activeProducerBlock attestations toolId =
      ((latestDecision (AttestationKind.cutOff toolId) isNone attestations).bind
        fun a => a.kind.cutOff toolId).join := by
  unfold activeProducerBlock
  cases hlatest : latestDecision (AttestationKind.cutOff toolId) isNone attestations with
  | none => rfl
  | some a =>
    have hdecides := latestDecision_decides hlatest
    rw [map_some, bind_some]
    unfold AttestationKind.cutOff at hdecides ⊢
    -- a decision about another producer is not the latest
    split at hdecides
    · next hkind =>
      split at hdecides
      · next htool => simp [hkind, htool]
      · cases hdecides
    · next hkind =>
      split at hdecides
      · next htool => simp [hkind, htool]
      · cases hdecides
    · cases hdecides

/-! ## The last recorded decision -/

namespace Issued

variable (run : Issued) {before after : List Attestation}

variable (heq : run.attestations = before ++ after)
include heq

theorem identified_before : Identified before :=
  fun a ha b hb => run.identified a (heq ▸ mem_append_left after ha) b
    (heq ▸ mem_append_left after hb)

omit heq in
theorem recorded_eq_none_iff {δ : Type} {outcome : Attestation → Option δ}
    (hpayload : ∀ a b : Attestation, a.attestationId = b.attestationId → a.payload = b.payload →
      outcome a = outcome b) (heq : run.attestations = before ++ after) :
    lastOutcome outcome (firsts before) = none ↔ lastOutcome outcome before = none :=
  lastOutcome_firsts_eq_none_iff fun a ha b hb hid =>
    hpayload a b hid (run.identified_before heq a ha b hb hid)

omit heq in
theorem increasing_firsts {selected : Attestation → Bool}
    (hincreasing : (run.attestations.filter selected).Pairwise fun a b => a.timestamp < b.timestamp)
    (heq : run.attestations = before ++ after) :
    ((firsts before).filter selected).Pairwise fun a b => a.timestamp < b.timestamp := by
  have hsublist : (firsts before).Sublist run.attestations := by
    rw [heq]
    exact (firsts_sublist before).trans (sublist_append_left before after)
  exact List.Pairwise.sublist (hsublist.filter selected) hincreasing

/-- What a log says of a stage is its last decision that was new. -/
theorem isStageBlocked_iff {stage : StageId}
    (hlisted : listed.Perm ((AttestationLog.puts before).listForStage stage)) : isStageBlocked listed = true ↔
      lastOutcome (stageDecision stage) (firsts before) = some true := by
  have hperm := hlisted.trans
    ((AttestationLog.follows_puts before).listForStage_perm (run.identified_before heq) stage)
  have houtcome : ∀ a, stageDecision stage a =
      if decide (a.stageId = stage) then a.kind.blocks else none := by
    intro a
    simp only [stageDecision, decide_eq_true_eq]
  rw [isStageBlocked_eq_true_iff, latestDecision_eq_lastOutcome houtcome hperm
    (run.increasing_firsts (run.stageIncreasing stage) heq)]

/-- What a log says of a producer is its last decision that was new. -/
theorem activeProducerBlock_eq {toolId : String}
    (hlisted : listed.Perm (AttestationLog.puts before).listAll) : activeProducerBlock listed toolId =
      (lastOutcome (producerDecision toolId) (firsts before)).join := by
  have hperm := hlisted.trans (AttestationLog.follows_puts before).listAll_perm
  rw [← filter_true (firsts before)] at hperm
  have houtcome : ∀ a, producerDecision toolId a = if true then a.kind.cutOff toolId else none :=
    fun _ => rfl
  rw [Attest.activeProducerBlock_eq, latestDecision_eq_lastOutcome houtcome hperm
    (run.increasing_firsts (run.producerIncreasing toolId) heq)]

/-- What a log's list in order of arrival ends with is the last review that was new. -/
theorem lastReview_eq {stage : StageId} {reviewer : String}
    (hlisted : listed.Perm ((AttestationLog.puts before).listForStage stage)) :
    lastOutcome (reviewDecision stage reviewer) ((AttestationLog.puts before).sortByArrival listed) =
      lastOutcome (reviewDecision stage reviewer) (firsts before) := by
  have hfollows := AttestationLog.follows_puts before
  have hperm := hlisted.trans (hfollows.listForStage_perm (run.identified_before heq) stage)
  rw [hfollows.sortByArrival_eq hperm]
  unfold lastOutcome
  rw [filterMap_filter]
  congr 2
  funext a
  by_cases hstage : a.stageId = stage
  · rw [if_pos (by rw [hstage]; exact decide_eq_true rfl)]
  · rw [if_neg (by rw [decide_eq_true_eq]; exact hstage)]
    unfold reviewDecision
    split
    · rw [if_neg fun h => hstage h.1]
    · rfl

omit heq

/-- **The last decision issued counts, at every point of a run, exactly where no repeated decision goes
against the one before it**: of a stage, of a producer, and of a reviewer. -/
theorem last_decision_counts_iff : (∀ stage, (∀ before after, run.attestations = before ++ after →
        ∀ listed : List Attestation, listed.Perm ((AttestationLog.puts before).listForStage stage) →
          (isStageBlocked listed = true ↔ lastOutcome (stageDecision stage) before = some true)) ↔
      NoStaleRepeat (stageDecision stage) run.attestations) ∧
    (∀ toolId, (∀ before after, run.attestations = before ++ after →
        ∀ listed : List Attestation, listed.Perm (AttestationLog.puts before).listAll →
          activeProducerBlock listed toolId = (lastOutcome (producerDecision toolId) before).join) ↔
      NoStaleRepeat (producerDecision toolId) run.attestations) ∧
    (∀ stage reviewer, (∀ before after, run.attestations = before ++ after →
        ∀ listed : List Attestation, listed.Perm ((AttestationLog.puts before).listForStage stage) →
          lastOutcome (reviewDecision stage reviewer) ((AttestationLog.puts before).sortByArrival listed) =
            lastOutcome (reviewDecision stage reviewer) before) ↔
      NoStaleRepeat (reviewDecision stage reviewer) run.attestations) := by
  refine ⟨fun stage => ?_, fun toolId => ?_, fun stage reviewer => ?_⟩
  · rw [← lastFirst_eq_last_iff]
    refine forall_congr' fun before => forall_congr' fun after => forall_congr' fun heq => ?_
    have hnone : lastOutcome (stageDecision stage) (firsts before) = none ↔
        lastOutcome (stageDecision stage) before = none := by
      apply run.recorded_eq_none_iff _ heq
      intro a b _ hpayload
      simp only [stageDecision, Attestation.stageId, Attestation.kind, hpayload]
    constructor
    · intro h
      have hblocked := (run.isStageBlocked_iff heq (Perm.refl _)).symm.trans
        (h _ (Perm.refl _))
      generalize lastOutcome (stageDecision stage) (firsts before) = recorded at hblocked hnone ⊢
      generalize lastOutcome (stageDecision stage) before = issued at hblocked hnone ⊢
      revert hblocked hnone
      rcases recorded with _ | _ | _ <;> rcases issued with _ | _ | _ <;> simp
    · intro h listed hlisted
      rw [run.isStageBlocked_iff heq hlisted, h]
  · rw [← lastFirst_eq_last_iff]
    refine forall_congr' fun before => forall_congr' fun after => forall_congr' fun heq => ?_
    have hnone : lastOutcome (producerDecision toolId) (firsts before) = none ↔
        lastOutcome (producerDecision toolId) before = none := by
      apply run.recorded_eq_none_iff _ heq
      intro a b _ hpayload
      simp only [producerDecision, Attestation.kind, hpayload]
    constructor
    · intro h
      have hcutOff := (run.activeProducerBlock_eq heq (Perm.refl _)).symm.trans
        (h _ (Perm.refl _))
      generalize lastOutcome (producerDecision toolId) (firsts before) = recorded at hcutOff hnone ⊢
      generalize lastOutcome (producerDecision toolId) before = issued at hcutOff hnone ⊢
      revert hcutOff hnone
      rcases recorded with _ | _ | _ <;> rcases issued with _ | _ | _ <;> simp
    · intro h listed hlisted
      rw [run.activeProducerBlock_eq heq hlisted, h]
  · rw [← lastFirst_eq_last_iff]
    refine forall_congr' fun before => forall_congr' fun after => forall_congr' fun heq => ?_
    constructor
    · intro h
      rw [← run.lastReview_eq heq (Perm.refl _)]
      exact h _ (Perm.refl _)
    · intro h listed hlisted
      rw [run.lastReview_eq heq hlisted, h]

end Issued

/-! ## A stage that is blocked again -/

/-- A decision about one stage, at a time. -/
def decided (id : AttestationId) (kind : AttestationKind) (timestamp : Nat) : Attestation :=
  ⟨id, ⟨"stage", none, none, kind, .passed, ⟨"lex", "1", none⟩⟩, timestamp⟩

/-- A stage is blocked, let go, and blocked again for the reason it was blocked before. -/
def blockedAgain : Issued where
  attestations := [decided "b" (.block "alice" "unsafe") 1, decided "u" (.unblock "alice" "reviewed") 2,
    decided "b" (.block "alice" "unsafe") 3]
  identified := by simp [Identified, decided]
  stageIncreasing := by
    intro stage
    by_cases h : "stage" = stage
    · simp [decided, stageDecision, h, AttestationKind.blocks]
    · simp [decided, stageDecision, h]
  producerIncreasing := by
    intro toolId
    simp [decided, producerDecision, AttestationKind.cutOff]

/-- **A block that is set again is lost**: the last decision is a block, and the stage is not
blocked. -/
theorem repeated_block_is_lost : lastOutcome (stageDecision "stage") blockedAgain.attestations = some true ∧
      isStageBlocked ((AttestationLog.puts blockedAgain.attestations).listForStage "stage") = false := by
  have hall : blockedAgain.attestations = blockedAgain.attestations ++ [] :=
    (append_nil _).symm
  constructor
  · simp [blockedAgain, decided, stageDecision, AttestationKind.blocks, lastOutcome]
  · rw [Bool.eq_false_iff, ne_eq, blockedAgain.isStageBlocked_iff hall (Perm.refl _)]
    simp [blockedAgain, decided, stageDecision, AttestationKind.blocks, lastOutcome, firsts]

end LexLang.Attest
