/-
# LexLang.Store.Pins — the merge that lands, and the merge that was reported

`Store.merge` reports a merge of two heads, and `commitMerge` lands the report later, on whatever heads
the branches have by then. The merge operation pins the sigs of the report. Its parents are the later
heads, and their histories may touch more.

`committed_pins_iff` compares the sigs a report pins with what they touch.
-/
import LexLang.Store.Calls

namespace LexLang

open LexLang.Vcs LexLang.Concurrent
open List

/-! ## What a report pins -/

/-- Some operation of either head's history touches the sig since their common ancestor. -/
def Vcs.OpLog.TouchedSince (log : OpLog) (srcHead dstHead : Option OpId) (sig : SigId) : Prop :=
  Touches log srcHead (mergeBase log srcHead dstHead) sig ∨
    Touches log dstHead (mergeBase log srcHead dstHead) sig

/-- Both sides end in the same operation on the sig, and it leaves no stage. -/
def Vcs.OpLog.RemovedByBoth (log : OpLog) (srcHead dstHead : Option OpId) (sig : SigId) : Prop :=
  Converged log srcHead dstHead (mergeBase log srcHead dstHead) sig ∧
    latestStage sig (touching sig (sideOps log srcHead (mergeBase log srcHead dstHead))).reverse = none

/-- A report names a sig as merged or as removed. -/
def MergeReport.Names (report : MergeReport) (sig : SigId) : Prop :=
  (∃ entry ∈ report.merged, entry.sigId = sig) ∨ sig ∈ report.removed

/-- The sig an outcome is about, if it says what becomes of it. -/
def Vcs.MergeOutcome.names : MergeOutcome → Option SigId
  | .both _ none => none
  | .both sigId (some _) | .src sigId _ | .dst sigId _ | .conflict sigId _ _ _ _ => some sigId

section Report

variable {semantic : SigId → StageId → StageId → StageId → Option StageId} {sig : SigId}

/-- **One outcome** that leaves no conflict names its sig. -/
theorem MergeReport.add_names {report : MergeReport} {o : MergeOutcome} (h : (report.add semantic o).conflicts = []) :
    report.conflicts = [] ∧ ((report.add semantic o).Names sig ↔ report.Names sig ∨ o.names = some sig) := by
  have hmerged : ∀ sigId stageId side,
      ({ report with merged := report.merged ++ [{ sigId, stageId, side }] } : MergeReport).Names sig ↔
        report.Names sig ∨ some sigId = some sig := by
    intro sigId stageId side
    unfold MergeReport.Names
    simp only [mem_append, mem_singleton, Option.some.injEq]
    constructor
    · rintro (⟨entry, hentry | rfl, hsig⟩ | hremoved)
      · exact .inl (.inl ⟨entry, hentry, hsig⟩)
      · exact .inr hsig
      · exact .inl (.inr hremoved)
    · rintro ((⟨entry, hentry, hsig⟩ | hremoved) | hsig)
      · exact .inl ⟨entry, .inl hentry, hsig⟩
      · exact .inr hremoved
      · exact .inl ⟨_, .inr rfl, hsig⟩
  have hremoved : ∀ sigId,
      ({ report with removed := report.removed ++ [sigId] } : MergeReport).Names sig ↔
        report.Names sig ∨ some sigId = some sig := by
    intro sigId
    unfold MergeReport.Names
    simp only [mem_append, mem_singleton, Option.some.injEq, or_assoc, @eq_comm _ sig]
  cases o with
  | both sigId stage =>
    cases stage with
    | some stageId => exact ⟨h, hmerged _ _ _⟩
    | none => exact ⟨h, by simp [MergeReport.add, MergeOutcome.names]⟩
  | src sigId stage | dst sigId stage =>
    cases stage with
    | some stageId => exact ⟨h, hmerged _ _ _⟩
    | none => exact ⟨h, hremoved _⟩
  | conflict sigId kind base src dst =>
    unfold MergeReport.add at h ⊢
    simp only at h ⊢
    split
    · rename_i b s d
      simp only at h
      cases hsemantic : semantic sigId b d s with
      | some stageId =>
        simp only [hsemantic] at h ⊢
        exact ⟨h, hmerged _ _ _⟩
      | none => simp [hsemantic] at h
    · rename_i hnot
      exfalso
      split at h
      · exact hnot _ _ _ rfl rfl rfl rfl
      · simp at h

theorem MergeReport.foldl_names (outcomes : List MergeOutcome) (report : MergeReport)
    (h : (outcomes.foldl (MergeReport.add semantic) report).conflicts = []) :
    report.conflicts = [] ∧ ((outcomes.foldl (MergeReport.add semantic) report).Names sig ↔
      report.Names sig ∨ ∃ o ∈ outcomes, o.names = some sig) := by
  induction outcomes generalizing report with
  | nil => exact ⟨h, by simp⟩
  | cons o outcomes ih =>
    obtain ⟨hadded, hrest⟩ := ih _ h
    obtain ⟨hbefore, hadd⟩ := MergeReport.add_names hadded
    refine ⟨hbefore, ?_⟩
    rw [foldl_cons, hrest, hadd]
    simp only [mem_cons, exists_eq_or_imp, or_assoc]

theorem outcomeOf_names {base : HeadMap} {key : SigId} {src dst : Option (List OperationRecord)}
    {o : MergeOutcome} (h : outcomeOf base key src dst = some o) :
    o.names = some sig ↔ key = sig ∧ ¬ ∃ srcGroup dstGroup, src = some srcGroup ∧
      dst = some dstGroup ∧ lastOpId srcGroup = lastOpId dstGroup ∧ latestStage key srcGroup = none := by
  cases src with
  | none =>
    cases dst with
    | none => cases h
    | some dstGroup =>
      rw [← Option.some.inj h]
      simp [MergeOutcome.names]
  | some srcGroup =>
    cases dst with
    | none =>
      rw [← Option.some.inj h]
      simp [MergeOutcome.names]
    | some dstGroup =>
      unfold outcomeOf at h
      simp only at h
      split at h
      · rename_i hlast
        rw [← Option.some.inj h]
        cases hstage : latestStage key srcGroup with
        | none => simp [MergeOutcome.names, hlast, hstage]
        | some stage => simp [MergeOutcome.names, hstage]
      · rename_i hlast
        rw [← Option.some.inj h]
        simp [MergeOutcome.names, hlast]

/-- **What a merge names**: the sigs that some side touches, but for those that both removed. -/
theorem outcomes_name_iff {log : OpLog} {srcHead dstHead : Option OpId} :
    (∃ o ∈ (merge log srcHead dstHead).outcomes, o.names = some sig) ↔
      log.TouchedSince srcHead dstHead sig ∧ ¬ log.RemovedByBoth srcHead dstHead sig := by
  have hgroup : ∀ head, (groupBySig (sideOps log head (mergeBase log srcHead dstHead)))[sig]? =
      if touching sig (sideOps log head (mergeBase log srcHead dstHead)) = [] then none
      else some (touching sig (sideOps log head (mergeBase log srcHead dstHead))).reverse :=
    fun head => getElem?_groupBySig _ sig
  have hremoved : (∃ srcGroup dstGroup,
      (groupBySig (sideOps log srcHead (mergeBase log srcHead dstHead)))[sig]? = some srcGroup ∧
      (groupBySig (sideOps log dstHead (mergeBase log srcHead dstHead)))[sig]? = some dstGroup ∧
      lastOpId srcGroup = lastOpId dstGroup ∧ latestStage sig srcGroup = none) ↔
        log.RemovedByBoth srcHead dstHead sig := by
    unfold OpLog.RemovedByBoth Converged Touches
    rw [hgroup, hgroup]
    constructor
    · rintro ⟨srcGroup, dstGroup, hsrc, hdst, hlast, hstage⟩
      split at hsrc
      · cases hsrc
      · rename_i hs
        split at hdst
        · cases hdst
        · rename_i hd
          obtain rfl := Option.some.inj hsrc
          obtain rfl := Option.some.inj hdst
          exact ⟨⟨hs, hd, hlast⟩, hstage⟩
    · rintro ⟨⟨hs, hd, hlast⟩, hstage⟩
      exact ⟨_, _, if_neg hs, if_neg hd, hlast, hstage⟩
  constructor
  · rintro ⟨o, ho, hname⟩
    obtain ⟨key, houtcome⟩ := mem_outcomes_iff.mp ho
    obtain ⟨rfl, hnot⟩ := (outcomeOf_names houtcome).mp hname
    refine ⟨?_, fun h => hnot (hremoved.mpr h)⟩
    by_contra hneither
    unfold OpLog.TouchedSince Touches at hneither
    rw [not_or, not_not, not_not] at hneither
    rw [hgroup, hgroup, if_pos hneither.1, if_pos hneither.2] at houtcome
    cases houtcome
  · rintro ⟨htouched, hnot⟩
    obtain ⟨o, houtcome⟩ : ∃ o, outcomeOf (log.replayHead (mergeBase log srcHead dstHead)) sig
        (groupBySig (sideOps log srcHead (mergeBase log srcHead dstHead)))[sig]?
        (groupBySig (sideOps log dstHead (mergeBase log srcHead dstHead)))[sig]? = some o := by
      rw [hgroup, hgroup]
      rcases htouched with h | h
      · rw [if_neg h]
        split
        · exact ⟨_, rfl⟩
        · unfold outcomeOf
          simp only
          split <;> exact ⟨_, rfl⟩
      · rw [if_neg h]
        split
        · exact ⟨_, rfl⟩
        · unfold outcomeOf
          simp only
          split <;> exact ⟨_, rfl⟩
    refine ⟨o, mem_outcomes_iff.mpr ⟨sig, houtcome⟩, ?_⟩
    exact (outcomeOf_names houtcome).mpr ⟨rfl, fun h => hnot (hremoved.mp h)⟩

theorem mem_foldl_insert {α : Type} {key : α → SigId} {value : α → Option StageId} (items : List α)
    (entries : Std.ExtTreeMap SigId (Option StageId)) :
    sig ∈ items.foldl (fun entries item => entries.insert (key item) (value item)) entries ↔
      sig ∈ entries ∨ ∃ item ∈ items, key item = sig := by
  induction items generalizing entries with
  | nil => simp
  | cons item items ih =>
    rw [foldl_cons, ih, Std.ExtTreeMap.mem_insert]
    simp only [Std.LawfulEqCmp.compare_eq_iff_eq, mem_cons, exists_eq_or_imp]
    tauto

/-- The entries of a commit pin the sigs its report names. -/
theorem mem_mergeEntries {dstMap : HeadMap} {report : MergeReport} :
    sig ∈ mergeEntries dstMap report ↔ report.Names sig := by
  unfold mergeEntries MergeReport.Names
  simp only
  rw [mem_foldl_insert, mem_foldl_insert]
  simp

/-- **What a clean report pins.** -/
theorem mem_mergeEntries_iff {log : OpLog} {src dst : BranchName} {srcHead dstHead : Option OpId} {dstMap : HeadMap}
    (hclean : (mergeReport semantic log src dst srcHead dstHead).conflicts = []) :
    sig ∈ mergeEntries dstMap (mergeReport semantic log src dst srcHead dstHead) ↔
      log.TouchedSince srcHead dstHead sig ∧ ¬ log.RemovedByBoth srcHead dstHead sig := by
  rw [mem_mergeEntries, ← outcomes_name_iff]
  unfold mergeReport at hclean ⊢
  rw [(MergeReport.foldl_names _ _ hclean).2]
  simp [MergeReport.Names]

end Report

/-! ## The commit of a report -/

theorem sortedSet_pair_length {d s : OpId} (h : s ≠ d) : ¬ (sortedSet [d, s]).length ≤ 1 := by
  have hd : d ∈ sortedSet [d, s] := mem_sortedSet.mpr (by simp)
  have hs : s ∈ sortedSet [d, s] := mem_sortedSet.mpr (by simp)
  match hlist : sortedSet [d, s] with
  | [] => simp [hlist] at hd
  | [x] =>
    rw [hlist, mem_singleton] at hd hs
    exact absurd (hs.trans hd.symm) h
  | x :: y :: rest => simp

/-- **A landing commits a report**: after the events `older` of its caller, it pins a clean report of
the merge of `src` into `dst`, on two parents. -/
structure Commits (older : List Event) (src dst : BranchName) (record : OperationRecord)
    (log : OpLog) (srcHead dstHead : Option OpId) (s d : OpId)
    (entries : Std.ExtTreeMap SigId (Option StageId)) : Prop where
  reported : ∃ head, older = [.merging dst head, .reported src dst srcHead dstHead log]
  parents : record.op.parents = sortedSet [d, s]
  produces : record.produces = .merge entries
  pins : ∀ sig, sig ∈ entries ↔
    log.TouchedSince srcHead dstHead sig ∧ ¬ log.RemovedByBoth srcHead dstHead sig

section Runs

variable {ι : Type} [DecidableEq ι] {env : Env} {calls : ι → Call}

/-- What is asked of the callers that report and commit. -/
def commitGuard (calls : ι → Call) (i : ι) (older : List Event) : Event → Prop
  | .landed _ _ record _ => ∀ src dst, calls i = .reportAndCommit src dst →
      ∃ log srcHead dstHead s d entries, Commits older src dst record log srcHead dstHead s d entries
  | _ => True

/-- **A caller that reports and commits** lands what it reported. -/
theorem sat_reportAndCommit {i : ι} {src dst : BranchName} {w : World ι Store Event}
    (hcall : calls i = .reportAndCommit src dst) (hown : own i w.trace = []) :
    Sat (spec env (commitGuard calls)) i (fun _ _ => True) ((Call.reportAndCommit src dst).prog env).run w := by
  unfold Call.prog
  refine sat_bind (sat_storeMerge fun _ _ _ => trivial) ?_ fun _ _ _ => trivial
  rintro report w₁ ⟨events, hgrew, semantic, srcHead, dstHead, log, rfl, rfl⟩
  have hown₁ : own i w₁.trace = [.reported src dst srcHead dstHead log] := by
    rw [hgrew.2, hown]
    rfl
  refine sat_bind (sat_commitMerge ?_) (fun _ _ _ => trivial) fun _ _ _ => trivial
  rw [hown₁]
  refine ⟨?_, fun _ _ => trivial, fun _ _ _ => trivial⟩
  intro hclean dstMap s d hne
  refine ⟨fun _ => trivial, ?_, fun _ _ _ _ _ _ => trivial, fun _ _ _ _ _ _ => trivial,
    fun _ _ _ _ _ _ _ => trivial, fun _ _ _ _ _ _ => trivial⟩
  intro head parent record filed hvariant hproduces src' dst' hcall'
  obtain ⟨rfl, rfl⟩ := Call.reportAndCommit.inj (hcall.symm.trans hcall')
  refine ⟨log, srcHead, dstHead, s, d, _, ⟨head, rfl⟩, ?_, hproduces, ?_⟩
  · -- the merge has two parents, so it was not rebuilt
    have hparents := hvariant.parents
    rw [if_neg] at hparents
    · exact hparents
    · intro hrebuild
      exact sortedSet_pair_length hne (of_decide_eq_true hrebuild)
  · exact fun sig => mem_mergeEntries_iff hclean

theorem committers_sound {store : Store} (hwf : store.WellFormed env.digest) :
    (callers env store calls).Sound (spec env (commitGuard calls)) fun _ _ _ => True := by
  refine ⟨hwf, fun i => ⟨_, Grew.refl i _, ?_⟩⟩
  show Sat _ i _ ((calls i).prog env).run _
  cases hcall : calls i with
  | reportAndCommit src dst => exact sat_reportAndCommit hcall rfl
  | _ =>
    refine (Call.conduct (fun older event => ?_) _).mono fun _ _ _ => trivial
    cases event with
    | landed =>
      intro src dst hcommit
      rw [hcall] at hcommit
      cases hcommit
    | _ => trivial

/-- **A committed merge, against what was reported.** Whatever happens between the report and the
commit, each sig that a parent's history touches is pinned if and only if the reported histories
touched it, and did not both remove it. What is pinned is what the merged head has, when the log holds
the merge under its id with these entries. -/
theorem committed_pins_iff {store : Store} (hwf : store.WellFormed env.digest) (schedule : List (ι × Bool))
    (hpromised : AllMeet (fun _ _ event => event.Promised) ((callers env store calls).exec schedule).world.trace)
    {i : ι} {src dst branch : BranchName} (hcall : calls i = .reportAndCommit src dst)
    {newer older : List (ι × Event)} {parent : Option OpId} {record filed : OperationRecord}
    (hlanded : ((callers env store calls).exec schedule).world.trace =
      newer ++ (i, .landed branch parent record filed) :: older) : ∃ log srcHead dstHead s d entries,
      Commits (own i older) src dst record log srcHead dstHead s d entries ∧ ((∀ sig,
          ((callers env store calls).exec schedule).world.state.log.TouchedSince (some s) (some d) sig →
            sig ∈ entries) ↔ ∀ sig,
          ((callers env store calls).exec schedule).world.state.log.TouchedSince (some s) (some d) sig →
            log.TouchedSince srcHead dstHead sig ∧ ¬ log.RemovedByBoth srcHead dstHead sig) ∧
      (filed.produces = record.produces → ∀ (sig : SigId) (value : Option StageId), entries[sig]? = some value →
        (((callers env store calls).exec schedule).world.state.log.replay record.opId)[sig]? = value) := by
  have hsound : (callers env store calls).Sound (spec env (commitGuard calls))
      fun _ _ _ => True := committers_sound hwf
  obtain ⟨log, srcHead, dstHead, s, d, entries, hcommits⟩ :=
    guard_exec hsound rfl schedule hpromised hlanded src dst hcall
  refine ⟨log, srcHead, dstHead, s, d, entries, hcommits, ?_, ?_⟩
  · exact forall_congr' fun sig => imp_congr_right fun _ => hcommits.pins sig
  · intro hproduces sig value hvalue
    have hmem : (i, Event.landed branch parent record filed) ∈
        ((callers env store calls).exec schedule).world.trace := by
      rw [hlanded]
      exact mem_append_right _ mem_cons_self
    have hfiled := filed_exec hsound rfl schedule hpromised hmem
    have hacyclic := ((hsound.exec schedule hpromised).1 : Store.WellFormed env.digest _).acyclic
    refine OpLog.getElem?_replay_of_writes hacyclic hfiled ?_
    rw [hproduces, hcommits.produces]
    exact hvalue

end Runs

/-! ## An operation between report and commit -/

instance (log : OpLog) (srcHead dstHead : Option OpId) (sig : SigId) :
    Decidable (log.TouchedSince srcHead dstHead sig) := by
  unfold OpLog.TouchedSince Touches
  infer_instance

/-- Short ids for two branches off one operation, one more operation on the topic branch, and the merges
without and with it. -/
def pinsTable : List (CanonicalForm × OpId) :=
  [((Operation.new (.addType "f" "s1" none) []).canonicalForm, "g"),
    ((Operation.new (.addType "m" "s2" none) ["g"]).canonicalForm, "d"),
    ((Operation.new (.addType "h" "s3" none) ["g"]).canonicalForm, "s"),
    ((Operation.new (.addType "k" "s4" none) ["s"]).canonicalForm, "t"),
    ((Operation.new (.merge 2) ["d", "s"]).canonicalForm, "x"),
    ((Operation.new (.merge 2) ["d", "t"]).canonicalForm, "y")]

noncomputable def pinsEnv : Env where
  digest := .ofTable pinsTable (by decide) (by decide)
  typeChecks := fun _ => true
  locksAgree := fun _ => true
  semanticMerge := fun _ _ _ _ _ _ => none
  manifestOk := fun _ => true

/-- Two branches, the merge of one into the other, and one more operation on the merged branch. -/
def pinsCalls : Fin 6 → Call
  | 0 => .applyOperation "main" (.new (.addType "f" "s1" none) []) (.create "f" "s1")
  | 1 => .createBranch "topic" "main"
  | 2 => .applyOperation "main" (.new (.addType "m" "s2" none) []) (.create "m" "s2")
  | 3 => .applyOperation "topic" (.new (.addType "h" "s3" none) []) (.create "h" "s3")
  | 4 => .reportAndCommit "topic" "main"
  | 5 => .applyOperation "topic" (.new (.addType "k" "s4" none) []) (.create "k" "s4")

def pinsStore : Store := .ofStages [("f", "s1"), ("m", "s2"), ("h", "s3"), ("k", "s4")]

/-- Everything up to the report, which is the first three steps of the fifth caller. -/
def pinsReported : List (Fin 6 × Bool) :=
  replicate 5 (0, true) ++ replicate 4 (1, true) ++ replicate 5 (2, true) ++
    replicate 5 (3, true) ++ replicate 3 (4, true)

/-- The merge is committed right after it is reported. -/
noncomputable def committedAtOnce : Config (Fin 6) Store Event Bool (Except StoreError Outcome) :=
  (callers pinsEnv pinsStore pinsCalls).exec (pinsReported ++ replicate 20 (4, true))

/-- The merge of what was reported. -/
def committedRecord : OperationRecord where
  opId := "x"
  formatVersion := .v1
  op := .new (.merge 2) ["d", "s"]
  produces := .merge (((∅ : Std.ExtTreeMap SigId (Option StageId)).insert "h" (some "s3")).insert "m"
    (some "s2"))

set_option maxRecDepth 10000 in
/-- Right after the report, every touched sig is pinned, and the merged head has what was reported. -/
theorem committedAtOnce_pinned : ∃ older log srcHead dstHead s d entries,
      Commits (own (4 : Fin 6) older) "topic" "main" committedRecord log srcHead dstHead s d entries ∧
      ((∀ sig, committedAtOnce.world.state.log.TouchedSince (some s) (some d) sig → sig ∈ entries) ↔
        ∀ sig, committedAtOnce.world.state.log.TouchedSince (some s) (some d) sig →
          log.TouchedSince srcHead dstHead sig ∧ ¬ log.RemovedByBoth srcHead dstHead sig) ∧
      (committedRecord.produces = committedRecord.produces →
        ∀ (sig : SigId) (value : Option StageId), entries[sig]? = some value →
          (committedAtOnce.world.state.log.replay "x")[sig]? = value) := by
  have hlanded : committedAtOnce.world.trace[3]? =
      some (4, .landed "main" (some "d") committedRecord committedRecord) := by rfl
  obtain ⟨newer, older, hsplit⟩ := append_of_mem (mem_of_getElem? hlanded)
  have hcall : pinsCalls 4 = .reportAndCommit "topic" "main" := rfl
  exact ⟨older, committed_pins_iff (Store.wellFormed_ofStages _ _)
    (pinsReported ++ replicate 20 (4, true)) (by decide) hcall hsplit⟩

/-- The operation lands on the topic branch between the report and the commit. -/
noncomputable def committedLater : Config (Fin 6) Store Event Bool (Except StoreError Outcome) :=
  (callers pinsEnv pinsStore pinsCalls).exec
    (pinsReported ++ replicate 5 (5, true) ++ replicate 20 (4, true))

set_option maxRecDepth 10000 in
/-- **A commit merges what was not reported**: the merge has the later head of the topic branch as a
parent, whose history touches `k`; its entries do not pin `k`, and the merged head has it. -/
theorem committedLater_not_pinned : (committedLater.pool 4).returned = some (.ok .done) ∧
      committedLater.world.state.headOp "main" = some "y" ∧
        (committedLater.world.state.log.get "y").map (fun record => record.op.parents) = some ["d", "t"] ∧
          (committedLater.world.state.log.get "y").map (fun record => record.produces.writes "k") = some none ∧
            committedLater.world.state.log.TouchedSince (some "t") (some "d") "k" ∧
              (committedLater.world.state.headMap "main")["k"]? = some "s4" := by
  refine ⟨by decide, by decide, by decide, by decide, by decide, by decide⟩

end LexLang
