/-
# LexLang.Vcs.Apply — persisting an operation, and what its id says about it

`apply` checks an operation's parents against a branch head and puts its record in the log
(`lex-vcs/src/apply.rs`). The log keeps the first record filed under an id, on the ground that an id
determines its record.

It does, for everything but merges. Of any other kind the transition is a function of the kind, and
the kind is hashed. A merge's kind holds only the NUMBER of its entries, while the entries are in
the transition, which is not hashed.
-/
import LexLang.Vcs.Replay

namespace LexLang.Vcs

open Option Std

/-! ## `apply` -/

/-- Why an operation is not applied. -/
inductive ApplyError
  | staleParent (expected : Option OpId) (opParents : List OpId)
  | unknownMergeParent (id : OpId)
  deriving DecidableEq

/-- The parents rule: none on an empty branch; the head alone; or, for a merge, the head and another
operation that is in the log. -/
def checkParents (log : OpLog) (headOp : Option OpId) (parents : List OpId) :
    Except ApplyError Unit :=
  match parents, headOp with
  | [], none => .ok ()
  | [p], some h => if p = h then .ok () else .error (.staleParent headOp parents)
  | [p, q], some h =>
    if p = q then .error (.staleParent headOp parents)
    else if p ≠ h ∧ q ≠ h then .error (.staleParent headOp parents)
    else
      let other := if p = h then q else p
      if (log.get other).isNone then .error (.unknownMergeParent other) else .ok ()
  | _, _ => .error (.staleParent headOp parents)

variable (digest : Digest)

/-- **Apply an operation against a branch head and persist it.** -/
def apply (log : OpLog) (headOp : Option OpId) (op : Operation) (transition : StageTransition) :
    Except ApplyError (OperationRecord × OpLog) :=
  match checkParents log headOp op.parents with
  | .error e => .error e
  | .ok () =>
    let record := OperationRecord.new digest op transition
    .ok (record, log.put record)

theorem apply_eq_ok {log : OpLog} {headOp : Option OpId} {op : Operation} {t : StageTransition}
    {record : OperationRecord} {log' : OpLog} (h : apply digest log headOp op t = .ok (record, log')) :
    checkParents log headOp op.parents = .ok () ∧ record = .new digest op t ∧ log' = log.put record := by
  unfold apply at h
  split at h
  · cases h
  · cases h
    exact ⟨‹_›, rfl, rfl⟩

/-! ## Runs of `apply` calls -/

/-- **A call of `apply` as the write paths make it.** A publish, patch, transform or promote takes
its transition from its kind; a merge commit takes the entries it decided on, and counts them in its
kind. Both build their operation with `Operation.new`, and may stamp an intent. -/
inductive ApplyCall
  | publish (headOp : Option OpId) (kind : OperationKind) (hkind : ∀ n, kind ≠ .merge n)
      (parents : List OpId) (intentId : Option IntentId)
  | merge (headOp : Option OpId) (entries : ExtTreeMap SigId (Option StageId))
      (parents : List OpId) (intentId : Option IntentId)

namespace ApplyCall

/-- The head the call was made against. -/
def headOp : ApplyCall → Option OpId
  | publish headOp _ _ _ _ => headOp
  | merge headOp _ _ _ => headOp

/-- The operation the call applies. -/
def op : ApplyCall → Operation
  | publish _ kind _ parents intentId => { Operation.new kind parents with intentId }
  | merge _ entries parents intentId =>
    { Operation.new (.merge entries.size) parents with intentId }

/-- The transition the call applies. -/
def transition : ApplyCall → StageTransition
  | publish _ kind _ _ _ => transitionForKind kind
  | merge _ entries _ _ => .merge entries

/-- The record the call builds. -/
def record (call : ApplyCall) : OperationRecord := .new digest call.op call.transition

theorem sortedSet_parents (call : ApplyCall) : sortedSet call.op.parents = call.op.parents := by
  cases call <;> exact sortedSet_idem _

/-- Calls whose records have one id apply one operation. -/
theorem op_eq_of_opId_eq {call call' : ApplyCall}
    (h : (call.record digest).opId = (call'.record digest).opId) : call.op = call'.op := by
  obtain ⟨hkind, hparents, hintent⟩ := (opId_eq_iff digest call.op call'.op).mp h
  rw [sortedSet_parents, sortedSet_parents] at hparents
  generalize call.op = op at *
  generalize call'.op = op' at *
  cases op
  cases op'
  simp_all

/-- **Of any kind but a merge, the operation determines the transition.** -/
theorem transition_eq_of_op_eq {call call' : ApplyCall} (h : call.op = call'.op) :
    call.transition = call'.transition ∨
      ∃ entries entries', call.transition = .merge entries ∧ call'.transition = .merge entries' := by
  have hkind := congrArg Operation.kind h
  cases call with
  | publish headOp kind hk parents intentId =>
    cases call' with
    | publish headOp' kind' hk' parents' intentId' =>
      left
      exact congrArg transitionForKind hkind
    | merge headOp' entries' parents' intentId' => exact absurd hkind (hk _)
  | merge headOp entries parents intentId =>
    cases call' with
    | publish headOp' kind' hk' parents' intentId' => exact absurd hkind.symm (hk' _)
    | merge headOp' entries' parents' intentId' => exact .inr ⟨entries, entries', rfl, rfl⟩

/-- A call that applies merge entries counts them in its kind. -/
theorem kind_of_transition_merge {call : ApplyCall}
    {entries : ExtTreeMap SigId (Option StageId)} (h : call.transition = .merge entries) :
    call.op.kind = .merge entries.size := by
  cases call with
  | merge headOp entries' parents intentId =>
    obtain rfl := StageTransition.merge.inj h
    rfl
  | publish headOp kind hk parents intentId =>
    obtain ⟨n, hn⟩ := transitionForKind_eq_merge h
    exact absurd hn (hk n)

end ApplyCall

/-- **A run**: the calls that return `Ok`, each with the log it leaves. A refused call leaves the log
as it was. -/
def applyRun : OpLog → List ApplyCall → List (ApplyCall × OpLog)
  | _, [] => []
  | log, call :: calls =>
    match apply digest log call.headOp call.op call.transition with
    | .ok (_, log') => (call, log') :: applyRun log' calls
    | .error _ => applyRun log calls

/-- **An id determines its record over a run**: calls that built records with one id built one
record, and after each call the log holds, under the id it returned, the transition it applied. -/
def RecordsDetermined (calls : List ApplyCall) : Prop :=
  (∀ x ∈ applyRun digest .empty calls, ∀ y ∈ applyRun digest .empty calls,
    (x.1.record digest).opId = (y.1.record digest).opId → x.1.record digest = y.1.record digest) ∧
  ∀ x ∈ applyRun digest .empty calls,
    (x.2.get (x.1.record digest).opId).map OperationRecord.produces = some x.1.transition

/-- What the log of a run holds: after each call, its record's id, with the record of some call
accepted by then. -/
theorem applyRun_get : ∀ (calls : List ApplyCall) (log : OpLog) (built : OperationRecord → Prop),
    (∀ id record, log.get id = some record → built record) →
    (∀ x ∈ applyRun digest log calls, built (x.1.record digest)) →
    ∀ x ∈ applyRun digest log calls,
      ∃ record, x.2.get (x.1.record digest).opId = some record ∧ built record
  | [], _, _, _, _ => by simp [applyRun]
  | call :: calls, log, built, hlog, hrun => by
    unfold applyRun at hrun ⊢
    cases happly : apply digest log call.headOp call.op call.transition with
    | error e =>
      rw [happly] at hrun
      exact applyRun_get calls log built hlog hrun
    | ok result =>
      obtain ⟨record, log'⟩ := result
      rw [happly] at hrun
      obtain ⟨_, hrecord, rfl⟩ := apply_eq_ok digest happly
      have hbuilt : built record := hrecord ▸ hrun (call, _) List.mem_cons_self
      have hput : ∀ id stored, (log.put record).get id = some stored → built stored := by
        intro id stored h
        rw [OpLog.get_put] at h
        cases hget : log.get id with
        | some old =>
          rw [hget, some_or] at h
          exact some.inj h ▸ hlog id old hget
        | none =>
          rw [hget, none_or] at h
          split at h
          · exact some.inj h ▸ hbuilt
          · cases h
      intro x hx
      rcases List.mem_cons.mp hx with rfl | hx
      · have hid : (call.record digest).opId = record.opId := by rw [hrecord]; rfl
        cases hget : log.get record.opId with
        | some old =>
          exact ⟨old, by rw [hid]; exact OpLog.get_put_of_some record hget,
            hlog _ old hget⟩
        | none => exact ⟨record, by simp [hid, OpLog.get_put, hget], hbuilt⟩
      · exact applyRun_get calls (log.put record) built hput
          (fun y hy => hrun y (List.mem_cons_of_mem _ hy)) x hx

/-- **When an id determines its record.** Exactly when no two merges that the run accepted have the
same parents, the same number of entries and the same intent, but different entries. -/
theorem recordsDetermined_iff (calls : List ApplyCall) : RecordsDetermined digest calls ↔
      ∀ x ∈ applyRun digest .empty calls, ∀ y ∈ applyRun digest .empty calls,
        ∀ entries entries', x.1.transition = .merge entries → y.1.transition = .merge entries' →
          x.1.op.parents = y.1.op.parents → entries.size = entries'.size →
          x.1.op.intentId = y.1.op.intentId → entries = entries' := by
  constructor
  · rintro ⟨hrecords, _⟩ x hx y hy entries entries' hxt hyt hparents hsize hintent
    have hid : (x.1.record digest).opId = (y.1.record digest).opId := by
      refine (opId_eq_iff digest x.1.op y.1.op).mpr ⟨?_, congrArg sortedSet hparents, hintent⟩
      rw [ApplyCall.kind_of_transition_merge hxt, ApplyCall.kind_of_transition_merge hyt, hsize]
    have hproduces := congrArg OperationRecord.produces (hrecords x hx y hy hid)
    exact StageTransition.merge.inj (hxt.symm.trans (hproduces.trans hyt))
  · intro hmerges
    have hrecords : ∀ x ∈ applyRun digest .empty calls, ∀ y ∈ applyRun digest .empty calls,
        (x.1.record digest).opId = (y.1.record digest).opId →
        x.1.record digest = y.1.record digest := by
      intro x hx y hy hid
      have hop := ApplyCall.op_eq_of_opId_eq digest hid
      have htransition : x.1.transition = y.1.transition := by
        rcases ApplyCall.transition_eq_of_op_eq hop with h | ⟨entries, entries', hxt, hyt⟩
        · exact h
        · have hkind := congrArg Operation.kind hop
          rw [ApplyCall.kind_of_transition_merge hxt, ApplyCall.kind_of_transition_merge hyt] at hkind
          rw [hxt, hyt, hmerges x hx y hy entries entries' hxt hyt (congrArg Operation.parents hop)
            (OperationKind.merge.inj hkind) (congrArg Operation.intentId hop)]
      unfold ApplyCall.record
      rw [hop, htransition]
    refine ⟨hrecords, ?_⟩
    intro x hx
    obtain ⟨stored, hget, y, hy, rfl⟩ := applyRun_get digest calls .empty
      (fun stored => ∃ y ∈ applyRun digest .empty calls, stored = y.1.record digest) (by simp)
      (fun y hy => ⟨y, hy, rfl⟩) x hx
    have hsame := hrecords y hy x hx (OpLog.get_opId hget)
    rw [hget, map_some, hsame]
    rfl

/-! ## Two merges with one id -/

/-- Short ids for a sig's first operation, two lines of work on top of it, and a merge of the two. -/
def forkTable : List (CanonicalForm × OpId) :=
  [((Operation.new (.addType "f" "s1" none) []).canonicalForm, "g"),
    ((Operation.new (.modifyType "f" "s1" "s2" none) ["g"]).canonicalForm, "a"),
    ((Operation.new (.modifyType "f" "s1" "s3" none) ["g"]).canonicalForm, "b"),
    ((Operation.new (.merge 1) ["a", "b"]).canonicalForm, "m")]

noncomputable def forkDigest : Digest := .ofTable forkTable (by decide) (by decide)

/-- A merge that keeps `a`'s stage and then, from the same head, one that keeps `b`'s: what a second
attempt after a rejected first one does. -/
def twoMerges : List ApplyCall :=
  [.publish none (.addType "f" "s1" none) (by simp) [] none,
    .publish (some "g") (.modifyType "f" "s1" "s2" none) (by simp) ["g"] none,
    .publish (some "g") (.modifyType "f" "s1" "s3" none) (by simp) ["g"] none,
    .merge (some "a") ((∅ : ExtTreeMap SigId (Option StageId)).insert "f" (some "s2"))
      ["a", "b"] none,
    .merge (some "a") ((∅ : ExtTreeMap SigId (Option StageId)).insert "f" (some "s3"))
      ["a", "b"] none]

/-- The second merge returns `Ok`, and the log holds the first one's entries under its id. -/
theorem twoMerges_not_determined : ¬ RecordsDetermined forkDigest twoMerges := by
  rintro ⟨_, hget⟩
  revert hget
  decide

end LexLang.Vcs
