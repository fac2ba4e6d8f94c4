/-
# LexLang.Store.Ledger — the session budget over runs of gated writes

The ledger adds up, session by session, what the operations reachable from branch heads spend
(`lex-store/src/budget.rs`). Session by session it is a sum over the reachable operations
(`spent_eq_sum`), so one call changes it by what the call makes reachable, and by what the intent it
records attributes.

The gate looks at the operation alone, and at its intent before the intent is recorded. `Counted` is
the condition under which nothing else counts.
-/
import LexLang.Store.Alone
import Mathlib.Data.UInt

namespace LexLang

open LexLang.Vcs LexLang.Concurrent
open List
open Std.ExtTreeMap

variable {session : SessionId} {cap : UInt64}

namespace Store

/-! ## The reachable operations -/

section Reachable

variable {store : Store} {log : OpLog}

/-- The records of a log that are listed, each once. -/
structure Listed (log : OpLog) (records : List OperationRecord) : Prop where
  filed : ∀ record ∈ records, log.get record.opId = some record
  nodup : records.Nodup

theorem Listed.eq_of_opId {records : List OperationRecord} (h : Listed log records)
    {record : OperationRecord} (hfiled : log.get record.opId = some record) :
    (records.any fun r => r.opId = record.opId) = true ↔ record ∈ records := by
  rw [any_eq_true]
  constructor
  · rintro ⟨r, hr, hid⟩
    have hr' := h.filed r hr
    have hid : r.opId = record.opId := by simpa using hid
    rw [hid, hfiled] at hr'
    exact Option.some.inj hr' ▸ hr
  · intro hr
    exact ⟨record, hr, by simp⟩

theorem addRecords_spec (walk records : List OperationRecord)
    (hwalk : ∀ record ∈ walk, log.get record.opId = some record) (h : Listed log records) :
    Listed log (addRecords records walk) ∧
      ∀ record, record ∈ addRecords records walk ↔ record ∈ records ∨ record ∈ walk := by
  induction walk generalizing records with
  | nil => exact ⟨h, by simp [addRecords]⟩
  | cons first walk ih =>
    have hfirst := hwalk first mem_cons_self
    have hrest := fun record hr => hwalk record (mem_cons_of_mem first hr)
    have hstep : addRecords records (first :: walk) =
        addRecords (if records.any fun r => r.opId = first.opId then records
          else records ++ [first]) walk := rfl
    rw [hstep]
    by_cases hmem : first ∈ records
    · rw [if_pos ((h.eq_of_opId hfirst).mpr hmem)]
      obtain ⟨hlisted, hiff⟩ := ih records hrest h
      refine ⟨hlisted, fun record => ?_⟩
      rw [hiff, mem_cons]
      constructor
      · rintro (hr | hr)
        · exact .inl hr
        · exact .inr (.inr hr)
      · rintro (hr | rfl | hr)
        · exact .inl hr
        · exact .inl hmem
        · exact .inr hr
    · rw [if_neg fun hany => hmem ((h.eq_of_opId hfirst).mp hany)]
      have hadded : Listed log (records ++ [first]) := by
        refine ⟨fun record hr => ?_, ?_⟩
        · rcases mem_append.mp hr with hr | hr
          · exact h.filed record hr
          · exact mem_singleton.mp hr ▸ hfirst
        · rw [nodup_append_comm]
          exact nodup_cons.mpr ⟨hmem, h.nodup⟩
      obtain ⟨hlisted, hiff⟩ := ih _ hrest hadded
      refine ⟨hlisted, fun record => ?_⟩
      rw [hiff, mem_append, mem_singleton, mem_cons, or_assoc]

/-- A record is reachable from a branch head. -/
def IsReachable (store : Store) (record : OperationRecord) : Prop :=
  ∃ name head, store.headOp name = some head ∧ record ∈ store.log.walkBack head none

/-- **The reachable records are listed, each once.** -/
theorem reachableRecords_spec (store : Store) : Listed store.log store.reachableRecords ∧
      ∀ record, record ∈ store.reachableRecords ↔ store.IsReachable record := by
  suffices hfold : Listed store.log store.reachableRecords ∧ ∀ record, record ∈ store.reachableRecords ↔
      record ∈ [] ∨ ∃ entry ∈ store.branches.toList, ∃ head, entry.2.headOp = some head ∧
        record ∈ store.log.walkBack head none by
    refine ⟨hfold.1, fun record => (hfold.2 record).trans ?_⟩
    unfold IsReachable headOp getBranch
    constructor
    · rintro (h | ⟨⟨name, branch⟩, hentry, head, hhead, hr⟩)
      · cases h
      · refine ⟨name, head, ?_, hr⟩
        rw [mem_toList_iff_getElem?_eq_some.mp hentry]
        exact hhead
    · rintro ⟨name, head, hhead, hr⟩
      obtain ⟨branch, hbranch, hhead⟩ := Option.bind_eq_some_iff.mp hhead
      exact .inr ⟨(name, branch), mem_toList_iff_getElem?_eq_some.mpr hbranch,
        head, hhead, hr⟩
  have h : Listed store.log [] := ⟨by simp, nodup_nil⟩
  unfold reachableRecords
  generalize store.branches.toList = entries
  generalize ([] : List OperationRecord) = records at h ⊢
  induction entries generalizing records with
  | nil => exact ⟨h, by simp⟩
  | cons entry entries ih =>
    rw [foldl_cons]
    cases hhead : entry.2.headOp with
    | none =>
      obtain ⟨hlisted, hiff⟩ := ih records h
      refine ⟨hlisted, fun record => ?_⟩
      rw [hiff]
      simp [hhead]
    | some head =>
      obtain ⟨hadded, hmem⟩ := addRecords_spec (store.log.walkBack head none) records
        (fun record hr => (OpLog.mem_walkBack_iff.mp hr).1) h
      obtain ⟨hlisted, hiff⟩ := ih _ hadded
      refine ⟨hlisted, fun record => ?_⟩
      rw [hiff, hmem, or_assoc]
      simp [hhead]

end Reachable

/-! ## The ledger as a sum -/

section Sum

variable {store : Store}

/-- What an operation adds to a session's entry. -/
def contribution (store : Store) (session : SessionId) (record : OperationRecord) : UInt64 :=
  if store.sessionOf record.op = some session then monotonicSpendOf record.op.kind else 0

/-- What a session has spent. -/
def spent (store : Store) (session : SessionId) : UInt64 := (store.sessionBudget session).spent

theorem getD_tally (buckets : Std.ExtTreeMap SessionId (UInt64 × Nat)) (record : OperationRecord)
    (session : SessionId) : ((store.tally buckets record)[session]?.getD (0, 0)).1 =
      (buckets[session]?.getD (0, 0)).1 + store.contribution session record := by
  unfold tally contribution
  cases hsession : store.sessionOf record.op with
  | none => simp
  | some owner =>
    simp only [Option.some.injEq]
    by_cases hzero : monotonicSpendOf record.op.kind = 0
    · rw [if_pos hzero, hzero, ite_self, UInt64.add_zero]
    · rw [if_neg hzero, Std.ExtTreeMap.getElem?_insert]
      simp only [Std.compare_eq_iff_eq]
      by_cases howner : owner = session
      · rw [if_pos howner, if_pos howner, howner]
        rfl
      · rw [if_neg howner, if_neg howner, UInt64.add_zero]

theorem getD_foldl_tally (store : Store) (records : List OperationRecord)
    (buckets : Std.ExtTreeMap SessionId (UInt64 × Nat)) (session : SessionId) :
    ((records.foldl store.tally buckets)[session]?.getD (0, 0)).1 =
      (buckets[session]?.getD (0, 0)).1 + (records.map (store.contribution session)).sum := by
  induction records generalizing buckets with
  | nil => simp
  | cons record records ih =>
    rw [foldl_cons, ih, getD_tally, map_cons, sum_cons, UInt64.add_assoc]

theorem mem_allSessionBudgets {entry : SessionBudget} (h : entry ∈ store.allSessionBudgets) :
    entry.cap = store.sessionBudgetCap entry.sessionId ∧
      (store.reachableRecords.foldl store.tally ∅)[entry.sessionId]? = some (entry.spent, entry.opCount) := by
  obtain ⟨⟨session, spent, opCount⟩, hbucket, rfl⟩ := mem_map.mp h
  exact ⟨rfl, mem_toList_iff_getElem?_eq_some.mp hbucket⟩

/-- **The ledger adds up the reachable operations.** -/
theorem spent_eq_sum (store : Store) (session : SessionId) :
    store.spent session = (store.reachableRecords.map (store.contribution session)).sum := by
  have hsum := getD_foldl_tally store store.reachableRecords ∅ session
  rw [getElem?_empty, Option.getD_none, UInt64.zero_add] at hsum
  rw [← hsum]
  unfold spent sessionBudget
  cases hfind : store.allSessionBudgets.find? fun entry => entry.sessionId = session with
  | some entry =>
    obtain rfl : entry.sessionId = session := by simpa using find?_some hfind
    rw [(mem_allSessionBudgets (mem_of_find?_eq_some hfind)).2]
    rfl
  | none =>
    cases hbucket : (store.reachableRecords.foldl store.tally ∅)[session]? with
    | none => rfl
    | some bucket =>
      -- a bucket has an entry
      have hentry := find?_eq_none.mp hfind _ (mem_map.mpr
        ⟨(session, bucket), mem_toList_iff_getElem?_eq_some.mpr hbucket, rfl⟩)
      simp at hentry

theorem spent_of_mem {entry : SessionBudget} (h : entry ∈ store.allSessionBudgets) :
    entry.spent = store.spent entry.sessionId := by
  have hsum := getD_foldl_tally store store.reachableRecords ∅ entry.sessionId
  rw [(mem_allSessionBudgets h).2, getElem?_empty, Option.getD_none, UInt64.zero_add] at hsum
  rw [spent_eq_sum, ← hsum]
  rfl

/-- **Every session of the ledger is within its cap.** -/
def WithinCaps (store : Store) : Prop :=
  ∀ entry ∈ store.allSessionBudgets, ∀ cap, entry.cap = some cap → entry.spent ≤ cap

theorem withinCaps_iff : store.WithinCaps ↔
    ∀ session cap, store.sessionBudgetCap session = some cap → store.spent session ≤ cap := by
  constructor
  · intro h session cap hcap
    unfold spent sessionBudget
    cases hfind : store.allSessionBudgets.find? fun entry => entry.sessionId = session with
    | none => exact UInt64.zero_le
    | some entry =>
      obtain rfl : entry.sessionId = session := by simpa using find?_some hfind
      have hmem := mem_of_find?_eq_some hfind
      exact h entry hmem cap ((mem_allSessionBudgets hmem).1.trans hcap)
  · intro h entry hmem cap hcap
    rw [spent_of_mem hmem]
    exact h _ cap ((mem_allSessionBudgets hmem).1.symm.trans hcap)

end Sum

/-! ## What a call adds to the ledger -/

/-- The store with a call's intent recorded. -/
def recorded (store : Store) : Option Intent → Store
  | some intent => { store with intents := store.intents.put intent }
  | none => store

theorem recorded_eq (store : Store) (intent : Option Intent) :
    ∃ intents, store.recorded intent = { store with intents } := by
  cases intent with
  | none => exact ⟨store.intents, rfl⟩
  | some intent => exact ⟨store.intents.put intent, rfl⟩

/-- An operation adds nothing to a session that has a cap. -/
def Unmetered (store : Store) (op : Operation) : Prop :=
  ∀ session cap, store.sessionOf op = some session → store.sessionBudgetCap session = some cap →
    monotonicSpendOf op.kind = 0

section Step

variable {digest : Digest} {store after : Store}

theorem contribution_of_unmetered {record : OperationRecord} (h : store.Unmetered record.op)
    (hcap : store.sessionBudgetCap session = some cap) : store.contribution session record = 0 := by
  unfold contribution
  split
  · rename_i hsession
    exact h session cap hsession hcap
  · rfl

theorem reachableRecords_beside (h : Beside digest store after) (hwf : store.WellFormed digest) :
    after.reachableRecords = store.reachableRecords := by
  have hheads : ∀ entry ∈ store.branches.toList, ∀ head, entry.2.headOp = some head → store.log.get head ≠ none := by
    intro entry hentry head hhead
    refine hwf.heads entry.1 head ?_
    unfold headOp getBranch
    rw [mem_toList_iff_getElem?_eq_some.mp hentry]
    exact hhead
  unfold reachableRecords
  rw [h.branches]
  generalize store.branches.toList = entries at hheads
  generalize ([] : List OperationRecord) = records
  induction entries generalizing records with
  | nil => rfl
  | cons entry entries ih =>
    rw [foldl_cons, foldl_cons]
    cases hhead : entry.2.headOp with
    | none => exact ih (fun e he => hheads e (mem_cons_of_mem _ he)) _
    | some head =>
      simp only
      rw [OpLog.walkBack_of_le hwf.closed h.log (hheads entry mem_cons_self head hhead)]
      exact ih (fun e he => hheads e (mem_cons_of_mem _ he)) _

theorem sessionBudgetCap_congr (hpolicy : after.policy = store.policy) :
    after.sessionBudgetCap = store.sessionBudgetCap := by
  funext session
  unfold sessionBudgetCap policyInForce
  rw [hpolicy]

/-- **The ledger depends on what is reachable and whom it is attributed to.** -/
theorem allSessionBudgets_congr (hrecords : after.reachableRecords = store.reachableRecords)
    (hpolicy : after.policy = store.policy)
    (hsession : ∀ record ∈ store.reachableRecords, monotonicSpendOf record.op.kind = 0 ∨
      after.sessionOf record.op = store.sessionOf record.op) : after.allSessionBudgets = store.allSessionBudgets := by
  have htally : ∀ record ∈ store.reachableRecords, ∀ buckets,
      after.tally buckets record = store.tally buckets record := by
    intro record hr buckets
    unfold tally
    rcases hsession record hr with hzero | hsame
    · simp only [hzero]
      cases after.sessionOf record.op <;> cases store.sessionOf record.op <;> rfl
    · rw [hsame]
  have hfold : after.reachableRecords.foldl after.tally ∅ =
      store.reachableRecords.foldl store.tally ∅ := by
    rw [hrecords]
    exact foldl_ext _ _ _ fun buckets record hr => htally record hr buckets
  unfold allSessionBudgets
  rw [hfold, sessionBudgetCap_congr hpolicy]

theorem sum_eq_zero_or {f : OperationRecord → UInt64} {x : OperationRecord} :
    ∀ {records : List OperationRecord}, records.Nodup → (∀ r ∈ records, r ≠ x → f r = 0) →
      (records.map f).sum = 0 ∨ (records.map f).sum = f x
  | [], _, _ => .inl rfl
  | r :: records, hnd, hzero => by
    obtain ⟨hr, hnd⟩ := nodup_cons.mp hnd
    rw [map_cons, sum_cons]
    by_cases hx : r = x
    · right
      have hrest : (records.map f).sum = 0 := by
        refine sum_eq_zero fun y hy => ?_
        obtain ⟨r', hr', rfl⟩ := mem_map.mp hy
        exact hzero r' (mem_cons_of_mem _ hr') fun h => hr (hx ▸ h ▸ hr')
      rw [hrest, hx, UInt64.add_zero]
    · rw [hzero r mem_cons_self hx, UInt64.zero_add]
      exact sum_eq_zero_or hnd fun r' hr' => hzero r' (mem_cons_of_mem _ hr')

/-- **The ledger grows by what becomes reachable**: at most one new operation that counts. -/
theorem spent_of_reachable {x : OperationRecord}
    (hold : ∀ record, store.IsReachable record → after.IsReachable record)
    (hsame : ∀ record, store.IsReachable record →
      after.contribution session record = store.contribution session record)
    (hnew : ∀ record, after.IsReachable record → ¬ store.IsReachable record → record ≠ x →
      after.contribution session record = 0) : after.spent session = store.spent session ∨
      after.spent session = store.spent session + after.contribution session x := by
  classical
  obtain ⟨hlisted, hmem⟩ := store.reachableRecords_spec
  obtain ⟨hlisted', hmem'⟩ := after.reachableRecords_spec
  let old := after.reachableRecords.filter fun r => decide (r ∈ store.reachableRecords)
  let new := after.reachableRecords.filter fun r => !decide (r ∈ store.reachableRecords)
  have hperm : old.Perm store.reachableRecords := by
    refine (perm_ext_iff_of_nodup (hlisted'.nodup.filter _) hlisted.nodup).mpr fun r => ?_
    rw [mem_filter, decide_eq_true_eq, hmem', hmem]
    exact ⟨fun h => h.2, fun h => ⟨hold r h, h⟩⟩
  have hsplit : (after.reachableRecords.map (after.contribution session)).sum =
      (old.map (after.contribution session)).sum + (new.map (after.contribution session)).sum := by
    rw [← sum_append, ← map_append]
    exact (((filter_append_perm _ after.reachableRecords).symm).map _).sum_eq
  have hsumOld : (old.map (after.contribution session)).sum = store.spent session := by
    rw [spent_eq_sum, (hperm.map _).sum_eq]
    congr 1
    exact map_congr_left fun r hr => hsame r ((hmem r).mp hr)
  have hsumNew := sum_eq_zero_or (f := after.contribution session) (x := x)
    (hlisted'.nodup.filter fun r => !decide (r ∈ store.reachableRecords)) fun r hr hx => by
      obtain ⟨hr', hnot⟩ := mem_filter.mp hr
      refine hnew r ((hmem' r).mp hr') (fun h => ?_) hx
      simp [(hmem r).mpr h] at hnot
  rw [spent_eq_sum after, hsplit, hsumOld]
  rcases hsumNew with h | h
  · left
    rw [h, UInt64.add_zero]
  · right
    rw [h]

end Step

end Store

/-! ## One gated call -/

/-- **A call of `apply_operation_checked_with_intent`.** -/
structure CheckedCall where
  branch : BranchName
  op : Operation
  transition : StageTransition
  candidate : HeadMap
  intent : Option Intent

/-- The program of the call. -/
def CheckedCall.prog (env : Env) (call : CheckedCall) : StoreProg OpId :=
  applyOperationCheckedWithIntent env call.branch call.op call.transition call.candidate call.intent

/-- What the gate of a call looks at passed. -/
def CheckedCall.Gated (call : CheckedCall) (record : OperationRecord) (store : Store) : Prop :=
  GatePassed store call.branch record.opId (attestableStageIds call.transition)
    (opDeclaredEffects call.op.kind)

/-- How a gated call ends: it landed its operation behind its gates, or left everything beside the
heads, with its intent recorded or not. -/
def CheckedCall.Ends (env : Env) (call : CheckedCall) (before : Store) (result : Except StoreError OpId)
    (after : Store) : Prop :=
  match result with
  | .ok id => before.checkSessionBudget call.op = .ok () ∧ ∃ record, record.opId = id ∧
      LandedAlone env call.branch call.op call.transition call.Gated (before.recorded call.intent) after
        record
  | .error _ => ∃ intent, (intent = none ∨ intent = call.intent) ∧
      Beside env.digest (before.recorded intent) after

section Checked

variable {env : Env} {store after : Store} {call : CheckedCall}

theorem Store.WellFormed.recorded {digest : Digest} (hwf : store.WellFormed digest)
    (intent : Option Intent) : (store.recorded intent).WellFormed digest := by
  obtain ⟨intents, h⟩ := store.recorded_eq intent
  rw [h]
  exact hwf.congr rfl (fun _ => rfl) rfl

theorem CheckedCall.alone (hwf : store.WellFormed env.digest) :
    Alone (call.prog env) (call.Ends env store) store := by
  have hrefused : ∀ e after, Beside env.digest store after → call.Ends env store (.error e) after :=
    fun e after h => ⟨none, .inl rfl, h⟩
  refine alone_bind.mpr (alone_access.mpr ⟨hrefused _ _ (.refl hwf), ?_⟩)
  show Alone (if _ then _ else _) _ _
  split
  · refine alone_bind.mpr (alone_query.mpr ⟨hrefused _ _ (.refl hwf), ?_⟩)
    cases hbudget : store.checkSessionBudget call.op with
    | error e => exact hrefused e _ (.refl hwf)
    | ok _ =>
      have hland : Alone
          (casRetryAdvance env call.branch call.op call.transition fun record => do
            recordTypecheckPassed (attestableStageIds call.transition) record.opId
            gate call.branch record.opId (attestableStageIds call.transition)
              (opDeclaredEffects call.op.kind))
          (LandsAlone env call.branch call.op call.transition call.Gated
            (store.recorded call.intent)) (store.recorded call.intent) :=
        casRetryAdvance_alone (fun record _ hwf => recordAndGate_alone hwf _ record.opId _)
          (hwf.recorded call.intent)
      have hland := hland.mono fun result after h =>
        show call.Ends env store result after from by
          cases result with
          | ok id => exact ⟨hbudget, h⟩
          | error e => exact ⟨call.intent, .inr rfl, h⟩
      cases hintent : call.intent with
      | none =>
        rw [hintent] at hland
        exact hland
      | some intent =>
        rw [hintent] at hland
        exact alone_bind.mpr (alone_update.mpr ⟨hrefused _ _ (.refl hwf), hland⟩)
  · -- the hints are written beside the heads
    refine alone_bind.mpr (alone_attempt.mpr ((putAttestations_alone hwf _).mono ?_))
    exact fun _ after h => hrefused .typeError after h

/-! ### What a landing makes reachable -/

variable {branch : BranchName} {op : Operation} {transition : StageTransition}
  {passed : OperationRecord → Store → Prop} {record : OperationRecord}

/-- What was reachable stays reachable: the head that moved is a parent of the new one. -/
theorem LandedAlone.reachable_of_before (h : LandedAlone env branch op transition passed store after record)
    (hwf : store.WellFormed env.digest) {r : OperationRecord} (hr : store.IsReachable r) : after.IsReachable r := by
  have hadv := h.advanced
  obtain ⟨name, head, hhead, hwalk⟩ := hr
  have hwalk' : r ∈ after.log.walkBack head none := by
    rw [OpLog.walkBack_of_le hwf.closed hadv.log (hwf.heads name head hhead)]
    exact hwalk
  by_cases hname : branch = name
  · refine ⟨name, record.opId, by rw [hadv.headOp, if_pos hname], ?_⟩
    obtain ⟨filed, hfiled, -, -, hparents⟩ := hadv.filed
    obtain ⟨log, -, hcheck⟩ := h.parents
    obtain ⟨hget, hreach⟩ := OpLog.mem_walkBack_iff.mp hwalk'
    refine OpLog.mem_walkBack_iff.mpr ⟨hget, .head (OpLog.edge_iff.mpr ⟨filed, hfiled, ?_⟩) hreach⟩
    exact (hparents head).mpr (checkParents_mem hcheck (hname ▸ hhead))
  · exact ⟨name, head, by rw [hadv.headOp, if_neg hname]; exact hhead, hwalk'⟩

/-- **What a landing makes reachable**: the operation, and, of a merge, what its parents reach. -/
theorem LandedAlone.reachable_after (h : LandedAlone env branch op transition passed store after record)
    (hwf : store.WellFormed env.digest) {r : OperationRecord} (hr : after.IsReachable r) :
    store.IsReachable r ∨ r.opId = record.opId ∨
      1 < op.parents.length ∧ ∃ p ∈ op.parents, r ∈ store.log.walkBack p none := by
  have hadv := h.advanced
  obtain ⟨name, head, hhead, hwalk⟩ := hr
  rw [hadv.headOp] at hhead
  split at hhead
  · obtain rfl := Option.some.inj hhead
    obtain ⟨hget, hreach⟩ := OpLog.mem_walkBack_iff.mp hwalk
    rcases Relation.ReflTransGen.cases_head hreach with hid | ⟨p, hedge, hreach⟩
    · exact .inr (.inl hid.symm)
    obtain ⟨filed, hfiled, -, -, hparents⟩ := hadv.filed
    obtain ⟨filed', hfiled', hp⟩ := OpLog.edge_iff.mp hedge
    obtain rfl : filed = filed' := Option.some.inj (hfiled.symm.trans hfiled')
    have hp := (hparents p).mp hp
    have hwalk : r ∈ store.log.walkBack p none := by
      rw [← OpLog.walkBack_of_le hwf.closed hadv.log (h.logged p hp)]
      exact OpLog.mem_walkBack_iff.mpr ⟨hget, hreach⟩
    have hvariant := h.variant.parents
    by_cases hlength : op.parents.length ≤ 1
    · -- an operation with one parent is on the head
      rw [if_pos (by simpa [Operation.isRebuildable] using hlength)] at hvariant
      obtain ⟨log, -, hcheck⟩ := h.parents
      rw [checkParents_toList hcheck hvariant] at hp
      exact .inl ⟨branch, p, Option.mem_toList.mp hp, hwalk⟩
    · rw [if_neg (by simpa [Operation.isRebuildable] using hlength)] at hvariant
      exact .inr (.inr ⟨by omega, p, hvariant ▸ hp, hwalk⟩)
  · rw [OpLog.walkBack_of_le hwf.closed hadv.log (hwf.heads name head hhead)] at hwalk
    exact .inl ⟨name, head, hhead, hwalk⟩

end Checked

/-! ## Runs of gated calls -/

/-- **The gate counts everything the call brings**: the operation's own session is the one that the
gate finds, or has no cap to exceed; recording the intent attributes no spend of operations that are
reachable already; and a merge makes nothing reachable that a capped session spent. -/
structure Counted (store : Store) (call : CheckedCall) : Prop where
  own : (store.recorded call.intent).sessionOf call.op = store.sessionOf call.op ∨
    (store.recorded call.intent).Unmetered call.op
  earlier : ∀ record, store.IsReachable record → monotonicSpendOf record.op.kind = 0 ∨
    (store.recorded call.intent).sessionOf record.op = store.sessionOf record.op
  merged : 1 < call.op.parents.length → ∀ p ∈ call.op.parents,
    ∀ record ∈ store.log.walkBack p none, store.IsReachable record ∨
      (store.recorded call.intent).Unmetered record.op

/-- What the claimed invariant says about one call: `Ok` leaves every session within its cap, and a
refusal leaves the ledger and the heads as they were. -/
def KeepsBudget (before : Store) (result : Except StoreError OpId) (after : Store) : Prop :=
  match result with
  | .ok _ => after.WithinCaps
  | .error _ => after.allSessionBudgets = before.allSessionBudgets ∧
      ∀ name, after.headOp name = before.headOp name

section Runs

variable {env : Env} {store after : Store} {call : CheckedCall}

/-- A spend the gate admits fits, also where the sum saturates. -/
theorem add_le_of_saturatingAdd_le {a b : UInt64} (h : ¬ cap < saturatingAdd a b) : a + b ≤ cap := by
  unfold saturatingAdd at h
  rw [UInt64.le_iff_toNat_le, UInt64.toNat_add]
  split at h
  · rename_i hfits
    rw [UInt64.lt_iff_toNat_lt, UInt64.toNat_add] at h
    omega
  · rw [UInt64.lt_iff_toNat_lt] at h
    have hmax : (UInt64.ofNat (UInt64.size - 1)).toNat = 2 ^ 64 - 1 := rfl
    omega

theorem isReachable_recorded (intent : Option Intent) (record : OperationRecord) :
    (store.recorded intent).IsReachable record ↔ store.IsReachable record := by
  obtain ⟨intents, h⟩ := store.recorded_eq intent
  rw [h]
  exact Iff.rfl

theorem sessionBudgetCap_recorded (intent : Option Intent) :
    (store.recorded intent).sessionBudgetCap = store.sessionBudgetCap := by
  refine Store.sessionBudgetCap_congr ?_
  obtain ⟨intents, h⟩ := store.recorded_eq intent
  rw [h]

/-- The gate's verdict, session by session. -/
theorem fits_of_checkSessionBudget {op : Operation} (h : store.checkSessionBudget op = .ok ())
    (hsession : store.sessionOf op = some session)
    (hcap : store.sessionBudgetCap session = some cap) : store.spent session + monotonicSpendOf op.kind ≤ cap := by
  unfold Store.checkSessionBudget at h
  simp only [hsession, hcap] at h
  split at h
  · cases h
  · exact add_le_of_saturatingAdd_le ‹_›

/-- **A landing whose spend was counted** leaves every session within its cap. -/
theorem Counted.withinCaps (h : Counted store call) (hwf : store.WellFormed env.digest)
    (hcaps : store.WithinCaps) (hbudget : store.checkSessionBudget call.op = .ok ()) {record : OperationRecord}
    (hlanded : LandedAlone env call.branch call.op call.transition call.Gated
      (store.recorded call.intent) after record) : after.WithinCaps := by
  rw [Store.withinCaps_iff] at hcaps ⊢
  intro session cap hcap
  have hadv := hlanded.advanced
  have hwf' := hwf.recorded call.intent
  obtain ⟨filed, hfiled, hkind, hintent, -⟩ := hadv.filed
  have hsessionOf : ∀ op, after.sessionOf op = (store.recorded call.intent).sessionOf op := by
    intro op
    unfold Store.sessionOf
    rw [hadv.intents]
  have hcapEq : after.sessionBudgetCap = store.sessionBudgetCap := by
    rw [Store.sessionBudgetCap_congr hadv.policy, sessionBudgetCap_recorded]
  rw [hcapEq] at hcap
  have hfree : ∀ {r : OperationRecord}, (store.recorded call.intent).Unmetered r.op →
      after.contribution session r = 0 := by
    intro r hr
    refine Store.contribution_of_unmetered (fun s c hs hc => hr s c ?_ ?_) (hcapEq ▸ hcap)
    · rw [← hsessionOf]
      exact hs
    · rw [sessionBudgetCap_recorded, ← hcapEq]
      exact hc
  have hspent : after.spent session = store.spent session ∨
      after.spent session = store.spent session + after.contribution session filed :=
    Store.spent_of_reachable
      (fun r hr => hlanded.reachable_of_before hwf' ((isReachable_recorded _ r).mpr hr))
      (fun r hr => by
        unfold Store.contribution
        rcases h.earlier r hr with hzero | hsame
        · rw [hzero, ite_self, ite_self]
        · rw [hsessionOf, hsame])
      (fun r hr hnot hne => by
        rcases hlanded.reachable_after hwf' hr with hold | hid | ⟨hlength, p, hp, hwalk⟩
        · exact absurd ((isReachable_recorded _ r).mp hold) hnot
        · obtain ⟨name, head, -, hwalk⟩ := hr
          have hget := (OpLog.mem_walkBack_iff.mp hwalk).1
          rw [hid, hfiled] at hget
          exact absurd (Option.some.inj hget).symm hne
        · obtain ⟨intents, heq⟩ := store.recorded_eq call.intent
          have hwalk : r ∈ store.log.walkBack p none := by
            rw [heq] at hwalk
            exact hwalk
          rcases h.merged hlength p hp r hwalk with hold | hfree'
          · exact absurd hold hnot
          · exact hfree hfree')
  rcases hspent with hsame | hgrown
  · rw [hsame]
    exact hcaps session cap hcap
  rw [hgrown]
  -- what the operation itself adds
  have hop : filed.op.kind = call.op.kind ∧ filed.op.intentId = call.op.intentId :=
    ⟨hkind.trans hlanded.variant.kind, hintent.trans hlanded.variant.intentId⟩
  have hsessionFiled : after.sessionOf filed.op = (store.recorded call.intent).sessionOf call.op := by
    rw [hsessionOf]
    unfold Store.sessionOf
    rw [hop.2]
  unfold Store.contribution
  split
  · rename_i hsession
    rw [hop.1]
    rw [hsessionFiled] at hsession
    rcases h.own with hsame | hunmetered
    · exact fits_of_checkSessionBudget hbudget (hsame ▸ hsession) hcap
    · rw [hunmetered session cap hsession (by rw [sessionBudgetCap_recorded]; exact hcap),
        UInt64.add_zero]
      exact hcaps session cap hcap
  · rw [UInt64.add_zero]
    exact hcaps session cap hcap

/-- **A refusal** leaves the ledger and the heads. -/
theorem Counted.unchanged (h : Counted store call) (hwf : store.WellFormed env.digest)
    {intent : Option Intent} (hintent : intent = none ∨ intent = call.intent)
    (hbeside : Beside env.digest (store.recorded intent) after) : after.allSessionBudgets = store.allSessionBudgets ∧
      ∀ name, after.headOp name = store.headOp name := by
  obtain ⟨intents, heq⟩ := store.recorded_eq intent
  have hrecords : after.reachableRecords = store.reachableRecords := by
    rw [Store.reachableRecords_beside hbeside (hwf.recorded intent), heq]
    rfl
  refine ⟨Store.allSessionBudgets_congr hrecords ?_ fun record hr => ?_, fun name => ?_⟩
  · rw [hbeside.policy, heq]
  · have hreachable := (store.reachableRecords_spec.2 record).mp hr
    have hsession : after.sessionOf record.op = (store.recorded intent).sessionOf record.op := by
      unfold Store.sessionOf
      rw [hbeside.intents]
    rw [hsession]
    rcases hintent with rfl | rfl
    · exact .inr rfl
    · exact h.earlier record hreachable
  · rw [hbeside.headOp, heq]
    rfl

/-- **One counted call** keeps the budget. -/
theorem Counted.keepsBudget (h : Counted store call) (hwf : store.WellFormed env.digest) (hcaps : store.WithinCaps) :
    Alone (call.prog env) (fun result after => KeepsBudget store result after ∧ after.WellFormed env.digest ∧
        after.WithinCaps) store := by
  refine (CheckedCall.alone hwf).mono fun result after hends => ?_
  cases result with
  | ok id =>
    obtain ⟨hbudget, record, -, hlanded⟩ := hends
    have hwithin := h.withinCaps hwf hcaps hbudget hlanded
    exact ⟨hwithin, hlanded.advanced.wf, hwithin⟩
  | error e =>
    obtain ⟨intent, hintent, hbeside⟩ := hends
    have hsame := h.unchanged hwf hintent hbeside
    refine ⟨hsame, hbeside.wf, ?_⟩
    unfold Store.WithinCaps
    rw [hsame.1]
    exact hcaps

/-- **Run calls one after another**, each with the environment's answers to its accesses. -/
def runChecked (env : Env) : List (CheckedCall × (Nat → Bool)) → Store →
    List (Store × CheckedCall × Except StoreError OpId × Store)
  | [], _ => []
  | (call, answers) :: calls, store =>
    let (result, after) := (call.prog env).run.run answers store
    (store, call, result, after) :: runChecked env calls after

end Runs

/-! ## A first write of a session -/

/-- Every session may spend ten. -/
def cappedPolicy : PolicyFile :=
  { PolicyFile.default with sessionBudgets := { defaultCap := some 10, overrides := ∅ } }

/-- A store that holds the policy and the intents it is given, and nothing else. -/
def cappedStore (intents : List Intent) : Store :=
  { Store.empty with policy := some cappedPolicy, intents := intents.foldl IntentLog.put ∅ }

theorem cappedStore_wellFormed (digest : Digest) (intents : List Intent) : (cappedStore intents).WellFormed digest :=
  (Store.wellFormed_empty digest).congr rfl (fun _ => rfl) rfl

theorem cappedStore_withinCaps (intents : List Intent) : (cappedStore intents).WithinCaps := by
  intro entry hentry
  cases hentry

/-- A function of a declared budget, written under the session's intent. -/
def spendingOp (budget : UInt64) : Operation :=
  (Operation.new (.addFunction "f" "s1" ∅ (some budget) none) []).withIntent "i"

noncomputable def cappedEnv : Env where
  digest := .ofTable [((spendingOp 5).canonicalForm, "a"), ((spendingOp 100).canonicalForm, "b")]
    (by decide) (by decide)
  typeChecks := fun _ => true
  locksAgree := fun _ => true
  semanticMerge := fun _ _ _ _ _ _ => none
  manifestOk := fun _ => true

def spendingCall (budget : UInt64) : CheckedCall where
  branch := "main"
  op := spendingOp budget
  transition := .create "f" "s1"
  candidate := (∅ : HeadMap).insert "f" "s1"
  intent := some { intentId := "i", sessionId := "s" }

/-- A write under an intent that is recorded already is counted. -/
theorem recordedIntent_counted : Counted (cappedStore [{ intentId := "i", sessionId := "s" }]) (spendingCall 5) where
  own := .inl (by decide)
  earlier := fun record hr => by
    have hmem := ((Store.reachableRecords_spec _).2 record).mpr hr
    cases hmem
  merged := fun hlength => absurd hlength (by decide)

end LexLang
