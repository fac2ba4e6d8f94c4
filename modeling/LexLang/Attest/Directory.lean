/-
# LexLang.Attest.Directory — puts that run at once, one file operation at a time

`AttestationLog::put` as the steps it takes on the directory (`lex-vcs/src/attestation.rs`): each check,
write, rename, lock and unlock is one step, and between two steps of one call steps of others fall. A
call can be cut off after any of them; the lock is then free, and the temporary files stay.
-/
import LexLang.Attest.Log

namespace LexLang.Attest

open Function Std Std.ExtTreeMap

/-! ## The directory -/

/-- One call of `put`. -/
abbrev CallId := Nat

/-- **The files**: those of the log, the temporary ones, and who holds `arrival.lock`. -/
structure Directory where
  log : AttestationLog
  /-- `<id>.json.tmp` -/
  primaryTmp : ExtTreeMap AttestationId Attestation
  /-- `arrival.seq.tmp` -/
  counterTmp : Option Nat
  /-- `arrival/<id>.tmp` -/
  recordTmp : ExtTreeMap AttestationId Nat
  lock : Option CallId

/-- Where a call is: the operation it does next. -/
inductive Phase
  | checkPrimary
  | checkRecord
  | lockArrival
  | recheckRecord
  | readCounter
  | scanArrival
  | writeCounterTmp (next : Nat)
  | renameCounter (next : Nat)
  | writeRecordTmp (next : Nat)
  | renameRecord (next : Nat)
  | unlockArrival
  | writePrimaryTmp
  | renamePrimary
  | writeIndex
  | returned
  | cutOff
  deriving DecidableEq

namespace Directory

/-- The highest number in `arrival/`, where temporary files lie too. -/
def scanArrivalHighWater (dir : Directory) : Nat :=
  dir.recordTmp.toList.foldl (fun highest entry => max highest entry.2)
    dir.log.scanArrivalHighWater

/-- The lock is free when the call that holds it ends. -/
def release (dir : Directory) (call : CallId) : Directory :=
  if dir.lock = some call then { dir with lock := none } else dir

/-- **The next operation of a call.** There is none while another call holds the lock it waits for,
and none once it ended. A rename whose file is gone fails, and the call with it. -/
def step (dir : Directory) (call : CallId) (a : Attestation) : Phase → Option (Directory × Phase)
  | .checkPrimary =>
    if a.attestationId ∈ dir.log.primary then some (dir, .writeIndex) else some (dir, .checkRecord)
  | .checkRecord =>
    if a.attestationId ∈ dir.log.arrival then some (dir, .writePrimaryTmp)
    else some (dir, .lockArrival)
  | .lockArrival =>
    if dir.lock = none then some ({ dir with lock := some call }, .recheckRecord) else none
  | .recheckRecord =>
    -- another call may have stamped it while this one waited
    if a.attestationId ∈ dir.log.arrival then some (dir, .unlockArrival)
    else some (dir, .readCounter)
  | .readCounter =>
    match dir.log.counter with
    | some last => some (dir, .writeCounterTmp (last + 1))
    | none => some (dir, .scanArrival)
  | .scanArrival => some (dir, .writeCounterTmp (dir.scanArrivalHighWater + 1))
  | .writeCounterTmp next => some ({ dir with counterTmp := some next }, .renameCounter next)
  | .renameCounter next =>
    match dir.counterTmp with
    | none => some (dir.release call, .cutOff)
    | some n =>
      some ({ dir with log := { dir.log with counter := some n }, counterTmp := none },
        .writeRecordTmp next)
  | .writeRecordTmp next =>
    some ({ dir with recordTmp := dir.recordTmp.insert a.attestationId next }, .renameRecord next)
  | .renameRecord _ =>
    match dir.recordTmp[a.attestationId]? with
    | none => some (dir.release call, .cutOff)
    | some n =>
      let arrival := dir.log.arrival.insert a.attestationId n
      some ({ dir with log := { dir.log with arrival := arrival },
                       recordTmp := dir.recordTmp.erase a.attestationId },
        .unlockArrival)
  | .unlockArrival => some (dir.release call, .writePrimaryTmp)
  | .writePrimaryTmp =>
    some ({ dir with primaryTmp := dir.primaryTmp.insert a.attestationId a }, .renamePrimary)
  | .renamePrimary =>
    match dir.primaryTmp[a.attestationId]? with
    | none => some (dir, .cutOff)
    | some b =>
      let primary := dir.log.primary.insert a.attestationId b
      some ({ dir with log := { dir.log with primary := primary },
                       primaryTmp := dir.primaryTmp.erase a.attestationId },
        .writeIndex)
  | .writeIndex => some ({ dir with log := dir.log.index a }, .returned)
  | .returned => none
  | .cutOff => none

end Directory

/-! ## Calls that run at once -/

/-- One call: what it puts, and where it is. -/
structure Call where
  attestation : Attestation
  phase : Phase

/-- The directory, and the calls that began. -/
structure State where
  dir : Directory
  calls : CallId → Option Call

namespace State

def set (s : State) (call : CallId) (c : Call) (dir : Directory) : State :=
  ⟨dir, Function.update s.calls call (some c)⟩

theorem set_calls_self (s : State) (call : CallId) (c : Call) (dir : Directory) :
    (s.set call c dir).calls call = some c := by
  rw [set]
  exact update_self _ _ _

theorem set_calls_of_ne (s : State) {call call' : CallId} (h : call' ≠ call) (c : Call)
    (dir : Directory) : (s.set call c dir).calls call' = s.calls call' := by
  rw [set]
  exact update_of_ne h _ _

theorem set_set (s : State) (call : CallId) (c c' : Call) (dir dir' : Directory) :
    (s.set call c dir).set call c' dir' = s.set call c' dir' := by
  unfold set
  rw [update_idem]

/-- **A log from before there were stamps**: primary files, temporary ones, and nothing else. -/
def legacy (primary primaryTmp : ExtTreeMap AttestationId Attestation)
    (byStage : List (Vcs.StageId × AttestationId)) : State where
  dir := ⟨⟨primary, ∅, none, byStage⟩, primaryTmp, none, ∅, none⟩
  calls := fun _ => none

end State

/-- **What can happen next**: a call begins, does its next operation or is cut off, or the counter is
lost. A retry is a call that begins. -/
inductive Step : State → State → Prop
  | begin {s : State} (call : CallId) (a : Attestation) (h : s.calls call = none) :
      Step s (s.set call ⟨a, .checkPrimary⟩ s.dir)
  | advance {s : State} {call : CallId} {a : Attestation} {phase phase' : Phase} {dir : Directory}
      (h : s.calls call = some ⟨a, phase⟩) (hstep : s.dir.step call a phase = some (dir, phase')) :
      Step s (s.set call ⟨a, phase'⟩ dir)
  | cutOff {s : State} {call : CallId} {a : Attestation} {phase : Phase}
      (h : s.calls call = some ⟨a, phase⟩) :
      Step s (s.set call ⟨a, .cutOff⟩ (s.dir.release call))
  | loseCounter {s : State} :
      Step s { s with dir := { s.dir with log := { s.dir.log with counter := none } } }

/-- Any number of steps, of any calls in any order. -/
abbrev Reaches : State → State → Prop := Relation.ReflTransGen Step

/-! ## One call alone -/

/-- A call that nothing interrupts goes from one phase to another. -/
abbrev Alone (call : CallId) (a : Attestation) : Directory × Phase → Directory × Phase → Prop :=
  Relation.ReflTransGen fun before after => before.1.step call a before.2 = some after

theorem Reaches.of_alone {call : CallId} {a : Attestation} {before after : Directory × Phase}
    (h : Alone call a before after) (s : State) :
    Reaches (s.set call ⟨a, before.2⟩ before.1) (s.set call ⟨a, after.2⟩ after.1) := by
  induction h with
  | refl => exact Relation.ReflTransGen.refl
  | @tail middle after _ hstep ih =>
    refine ih.tail ?_
    have hadvance := Step.advance (s.set_calls_self call ⟨a, middle.2⟩ middle.1) hstep
    rw [State.set_set] at hadvance
    exact hadvance

namespace Directory

/-- A directory in which nothing is going on. -/
def quiet (log : AttestationLog) (primaryTmp : ExtTreeMap AttestationId Attestation) : Directory :=
  ⟨log, primaryTmp, none, ∅, none⟩

variable {log : AttestationLog} {primaryTmp : ExtTreeMap AttestationId Attestation}
  {call : CallId} {a : Attestation}

/-- Allocating a number: the one after the counter's, or after the highest there is. -/
theorem alone_allocate (hnew : a.attestationId ∉ log.arrival) :
    Alone call a (quiet log primaryTmp, .checkRecord)
      (⟨log, primaryTmp, none, ∅, some call⟩, .writeCounterTmp ((match log.counter with
        | some n => n
        | none => log.scanArrivalHighWater) + 1)) := by
  have hchecked : (quiet log primaryTmp).step call a .checkRecord =
      some (quiet log primaryTmp, .lockArrival) := if_neg hnew
  have hrechecked : Directory.step ⟨log, primaryTmp, none, ∅, some call⟩ call a .recheckRecord =
      some (⟨log, primaryTmp, none, ∅, some call⟩, .readCounter) := if_neg hnew
  refine .head hchecked (.head rfl (.head hrechecked ?_))
  cases hcounter : log.counter with
  | some n =>
    refine .single ?_
    simp only [step, hcounter]
  | none =>
    have hscan : Directory.scanArrivalHighWater ⟨log, primaryTmp, none, ∅, some call⟩ =
        log.scanArrivalHighWater := by
      have hlist : (∅ : ExtTreeMap AttestationId Nat).toList = [] :=
        toList_eq_nil_iff.mpr rfl
      rw [scanArrivalHighWater, hlist, List.foldl_nil]
    have hread : Directory.step ⟨log, primaryTmp, none, ∅, some call⟩ call a .readCounter =
        some (⟨log, primaryTmp, none, ∅, some call⟩, .scanArrival) := by
      simp only [step, hcounter]
    refine .head hread (.single ?_)
    simp only [step, hscan]

/-- Writing the counter and the record. -/
theorem alone_record (next : Nat) : Alone call a (⟨log, primaryTmp, none, ∅, some call⟩, .writeCounterTmp next)
      (quiet { log with counter := some next, arrival := log.arrival.insert a.attestationId next }
        primaryTmp, .writePrimaryTmp) := by
  have herase : ((∅ : ExtTreeMap AttestationId Nat).insert a.attestationId next).erase
      a.attestationId = ∅ := by
    ext id n
    simp
  let counted : AttestationLog := { log with counter := some next }
  let stamped : AttestationLog :=
    { counted with arrival := log.arrival.insert a.attestationId next }
  let recordTmp := (∅ : ExtTreeMap AttestationId Nat).insert a.attestationId next
  have hrenamed : Directory.step ⟨counted, primaryTmp, none, recordTmp, some call⟩ call a
      (.renameRecord next) = some (⟨stamped, primaryTmp, none, ∅, some call⟩, .unlockArrival) := by
    simp only [step, recordTmp, getElem?_insert_self, herase, stamped, counted]
  have hunlocked : Directory.step ⟨stamped, primaryTmp, none, ∅, some call⟩ call a .unlockArrival =
      some (quiet stamped primaryTmp, .writePrimaryTmp) := by
    simp only [step, release, if_pos, quiet]
  exact .head rfl (.head rfl (.head rfl (.head hrenamed (.single hunlocked))))

/-- **A call that nothing interrupts does what a put does.** -/
theorem alone_put (hnothing : primaryTmp = ∅) :
    Alone call a (quiet log primaryTmp, .checkPrimary) (quiet (log.put a) primaryTmp, .returned) := by
  subst hnothing
  have hindexed : Alone call a (quiet (log.persist a) ∅, .writeIndex)
      (quiet (log.put a) ∅, .returned) := .single rfl
  refine Relation.ReflTransGen.trans ?_ hindexed
  by_cases hin : a.attestationId ∈ log.primary
  · refine .single ?_
    rw [AttestationLog.persist, if_pos hin]
    exact if_pos hin
  · have hstamped : Alone call a (quiet log ∅, .checkRecord)
        (quiet (log.stampArrival a.attestationId) ∅, .writePrimaryTmp) := by
      by_cases hrecord : a.attestationId ∈ log.arrival
      · refine .single ?_
        rw [AttestationLog.stampArrival, if_pos hrecord]
        exact if_pos hrecord
      · rw [AttestationLog.stampArrival, if_neg hrecord]
        exact (alone_allocate hrecord).trans (alone_record _)
    have herase : ((∅ : ExtTreeMap AttestationId Attestation).insert a.attestationId a).erase
        a.attestationId = ∅ := by
      ext id b
      simp
    have hrenamed : Directory.step ⟨log.stampArrival a.attestationId,
        (∅ : ExtTreeMap AttestationId Attestation).insert a.attestationId a, none, ∅, none⟩ call a
          .renamePrimary = some (quiet (log.persist a) ∅, .writeIndex) := by
      simp only [step, getElem?_insert_self, herase, AttestationLog.persist, if_neg hin, quiet]
    have hchecked : (quiet log ∅).step call a .checkPrimary = some (quiet log ∅, .checkRecord) :=
      if_neg hin
    exact .head hchecked (hstamped.trans (.head rfl (.single hrenamed)))

end Directory

/-- **One call after another is one put after another.** -/
theorem reaches_put {s : State} {log : AttestationLog} {call : CallId} (a : Attestation)
    (hquiet : s.dir = Directory.quiet log ∅) (hcall : s.calls call = none) :
    Reaches s (s.set call ⟨a, .returned⟩ (Directory.quiet (log.put a) ∅)) := by
  have hbegin := Step.begin call a hcall
  rw [hquiet] at hbegin
  exact .head hbegin (Reaches.of_alone (Directory.alone_put rfl) s)

end LexLang.Attest
