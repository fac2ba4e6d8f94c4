/-
# LexLang.Store.Checked — the head names a program that was type-checked

Callers of the gated write paths, interleaved in any way. A single operation is checked before it lands,
on the head map its caller read; a merge is checked after it has landed, and until then the branch's
head is a program nobody has checked.

`GatedNext` is the automaton of one gated caller, and `Known` what its past says of the log. `Cleared`
says of a head that its program passed the check, or that the merge it is will still be judged.
`Uncontended` is what the callers' steps have to find for this to be kept: a checked operation lands on
the head it was checked on, and a merge is judged, and taken back, while it is still the head.
-/
import LexLang.Store.Acknowledged

namespace LexLang

open LexLang.Vcs LexLang.Concurrent
open Option
open List

/-! ## Gated callers -/

/-- The calls that type-check what they land. -/
def Call.isGated : Call → Bool
  | .planAndApply _ _ _ | .applyOperationGated _ _ _ _ | .replaceMatchArm _ _ _ _ _ _ _ _ _
  | .renameLocal _ _ _ _ _ _ _ _ _ _ | .inlineLet _ _ _ _ _ _ _ _ _ | .promote _ _ _
  | .applyMergeOpGated _ _ _ => true
  | _ => false

/-- **What a gated caller is seen doing next**, after the events of its own so far. -/
def GatedNext : List Event → Event → Prop
  | [], .planned _ _ _ | [], .merging _ _ | [.planned _ _ _], .passed _ => True
  | [.passed candidate, .planned branch _ map], .landed branch' _ record _ =>
    branch' = branch ∧ candidate = applyTransition map record.produces
  | [.merging branch _], .landed branch' _ _ _ => branch' = branch
  | [.landed branch _ _ _, .merging _ _], .judged branch' _ _ => branch' = branch
  | [.judged _ _ map, .landed _ _ _ _, .merging _ _], .passed candidate => candidate = map
  | [.landed branch _ _ _, .merging _ (some prev)], .rolledBack branch' _ target
  | [.judged _ _ _, .landed branch _ _ _, .merging _ (some prev)], .rolledBack branch' _ target =>
    branch' = branch ∧ target = prev
  | [.landed _ _ _ _, .merging _ _], .rollbackLost _
  | [.judged _ _ _, .landed _ _ _ _, .merging _ _], .rollbackLost _ => True
  | _, _ => False

/-- **What a gated caller's step has to find**: the head that its check was about. A checked operation
has at most one parent, and the log holds the transition that was checked; a merge is not alone on its
branch; and a rollback is not lost. -/
def UncontendedAfter : List Event → Event → Prop
  | [.passed _, .planned _ head _], .landed _ parent record filed =>
    parent = head ∧ filed.op.parents.length ≤ 1 ∧ filed.produces = record.produces
  | [.merging _ head], .landed _ parent _ _ => parent = head ∧ head ≠ none
  | [.landed _ _ record _, .merging _ _], .judged _ head _ => head = some record.opId
  | [.landed _ _ record _, .merging _ _], .rolledBack _ found _
  | [.judged _ _ _, .landed _ _ record _, .merging _ _], .rolledBack _ found _ =>
    found = some record.opId
  | _, .rollbackLost _ => False
  | _, event => event.Promised

instance (events : List Event) (event : Event) : Decidable (UncontendedAfter events event) := by
  unfold UncontendedAfter
  split <;> infer_instance

/-- The condition on the runs. -/
def Uncontended {ι : Type} [DecidableEq ι] (older : List (ι × Event)) (i : ι) (event : Event) : Prop :=
  UncontendedAfter (own i older) event

instance {ι : Type} [DecidableEq ι] (older : List (ι × Event)) (i : ι) (event : Event) :
    Decidable (Uncontended older i event) :=
  inferInstanceAs (Decidable (UncontendedAfter _ _))

theorem Uncontended.promised {ι : Type} [DecidableEq ι] {older : List (ι × Event)} {i : ι}
    {event : Event} (h : Uncontended older i event) : event.Promised := by
  cases event with
  | pushed =>
    unfold Uncontended UncontendedAfter at h
    split at h <;> first | exact h | simp_all
  | _ => trivial

/-- The merge of a caller that has landed and is not settled: its branch, the head it landed on, and
its id. -/
def pending : List Event → Option (BranchName × Option OpId × OpId)
  | [.landed branch parent record _, .merging _ _]
  | [.judged _ _ _, .landed branch parent record _, .merging _ _] =>
    some (branch, parent, record.opId)
  | _ => none

/-- **What a gated caller's past says of the log.** -/
inductive Known (env : Env) (log : OpLog) : List Event → Prop
  | idle : Known env log []
  | planned {branch head} (hhead : Logged log head) :
      Known env log [.planned branch head (log.replayHead head)]
  | checked {branch head candidate} (hhead : Logged log head)
      (hpass : env.typeChecks candidate = true) :
      Known env log [.passed candidate, .planned branch head (log.replayHead head)]
  | landed {branch parent record filed candidate branch' head map}
      (hlogged : log.get record.opId ≠ none)
      (hpass : env.typeChecks (log.replay record.opId) = true) :
      Known env log
        [.landed branch parent record filed, .passed candidate, .planned branch' head map]
  | merging {branch head} : Known env log [.merging branch head]
  | unjudged {branch prev record filed} (hlogged : log.get record.opId ≠ none)
      (hedge : Graph.Edge log.parentsOf record.opId prev) :
      Known env log [.landed branch (some prev) record filed, .merging branch (some prev)]
  | judged {branch prev record filed} (hlogged : log.get record.opId ≠ none)
      (hedge : Graph.Edge log.parentsOf record.opId prev) :
      Known env log [.judged branch (some record.opId) (log.replay record.opId),
        .landed branch (some prev) record filed, .merging branch (some prev)]
  | settled {branch parent record filed head judged map} (hlogged : log.get record.opId ≠ none)
      (hpass : env.typeChecks (log.replay record.opId) = true) :
      Known env log [.passed map, .judged branch judged map, .landed branch parent record filed,
        .merging branch head]
  | takenBack {branch found target events} (hevents : pending events ≠ none) :
      Known env log (.rolledBack branch found target :: events)

section Known

variable {env : Env} {log log' : OpLog} {events : List Event}

theorem Known.le (h : Known env log events) (hclosed : log.Closed) (hle : log.Le log') : Known env log' events := by
  have hreplay : ∀ {id}, log.get id ≠ none → log'.replay id = log.replay id :=
    fun hid => OpLog.replay_of_le hclosed hle hid
  cases h with
  | idle => exact .idle
  | planned hhead =>
    rw [← replayHead_of_le hclosed hle hhead]
    exact .planned (hhead.le hle)
  | checked hhead hpass =>
    rw [← replayHead_of_le hclosed hle hhead]
    exact .checked (hhead.le hle) hpass
  | landed hlogged hpass => exact .landed (hle.get_ne_none hlogged) (hreplay hlogged ▸ hpass)
  | merging => exact .merging
  | unjudged hlogged hedge => exact .unjudged (hle.get_ne_none hlogged) (hle.edge hedge)
  | judged hlogged hedge =>
    rw [← hreplay hlogged]
    exact .judged (hle.get_ne_none hlogged) (hle.edge hedge)
  | settled hlogged hpass => exact .settled (hle.get_ne_none hlogged) (hreplay hlogged ▸ hpass)
  | takenBack hevents => exact .takenBack hevents

/-- **The next step of a gated caller.** -/
theorem Known.next {store store' : Store} {event : Event} (h : Known env store.log events)
    (hwf : store.WellFormed env.digest) (hobserved : Observed env store store' (some event))
    (hnext : GatedNext events event) (hcond : UncontendedAfter events event) :
    Known env store'.log (event :: events) := by
  have hle := hobserved.grows
  have hholds := hobserved.holds event rfl
  have hlater := h.le hwf.closed hle
  cases h with
  | idle =>
    cases event with
    | planned branch head map =>
      obtain ⟨hhead, rfl⟩ := hholds
      have hlogged := hwf.logged branch
      rw [hhead] at hlogged
      unfold Store.headMap
      rw [hhead, ← replayHead_of_le hwf.closed hle hlogged]
      exact .planned (hlogged.le hle)
    | merging branch head => exact .merging
    | _ => exact hnext.elim
  | planned hhead =>
    cases event with
    | passed candidate =>
      rw [← replayHead_of_le hwf.closed hle hhead]
      exact .checked (hhead.le hle) hholds
    | _ => exact hnext.elim
  | checked hhead hpass =>
    cases event with
    | landed branch parent record filed =>
      obtain ⟨rfl, rfl⟩ := hnext
      obtain ⟨rfl, hlength, hproduces⟩ := hcond
      have hlogged : store.log.get record.opId ≠ none :=
        hholds.2.1 ▸ some_ne_none filed
      refine .landed (hle.get_ne_none hlogged) ?_
      -- the head map it gives is the one that was checked
      rw [OpLog.replay_of_le hwf.closed hle hlogged, replay_of_landed hwf hholds hlength, hproduces]
      exact hpass
    | _ => exact hnext.elim
  | landed hlogged hpass => cases event <;> exact hnext.elim
  | merging =>
    cases event with
    | landed branch parent record filed =>
      obtain rfl : branch = _ := hnext
      obtain ⟨rfl, hsome⟩ := hcond
      obtain ⟨prev, rfl⟩ := ne_none_iff_exists'.mp hsome
      have hedge := landed_edge hwf hholds rfl
      have hlogged : store.log.get record.opId ≠ none :=
        hholds.2.1 ▸ some_ne_none filed
      exact .unjudged (hle.get_ne_none hlogged) (hle.edge hedge)
    | _ => exact hnext.elim
  | @unjudged branch prev record filed hlogged hedge =>
    cases event with
    | judged branch' head map =>
      obtain rfl : branch' = branch := hnext
      obtain rfl : head = some record.opId := hcond
      obtain ⟨hhead, rfl⟩ := hholds
      unfold Store.headMap
      rw [hhead]
      show Known env store'.log [.judged branch' _ (store.log.replay record.opId), _, _]
      rw [← OpLog.replay_of_le hwf.closed hle hlogged]
      exact .judged (hle.get_ne_none hlogged) (hle.edge hedge)
    | rolledBack branch' found target => exact .takenBack (by simp [pending])
    | rollbackLost branch' => exact hcond.elim
    | _ => exact hnext.elim
  | @judged branch prev record filed hlogged hedge =>
    cases event with
    | passed candidate =>
      obtain rfl : candidate = _ := hnext
      refine .settled (hle.get_ne_none hlogged) ?_
      rw [OpLog.replay_of_le hwf.closed hle hlogged]
      exact hholds
    | rolledBack branch' found target => exact .takenBack (by simp [pending])
    | rollbackLost branch' => exact hcond.elim
    | _ => exact hnext.elim
  | settled hlogged hpass => cases event <;> exact hnext.elim
  | takenBack hevents => cases event <;> exact hnext.elim

end Known

/-! ## Cleared heads -/

variable {branch : BranchName} {id : OpId}

section Cleared

variable {ι : Type} [DecidableEq ι] {env : Env} {w w' : World ι Store Event}

/-- The pending merge of a caller. -/
def pendingOf (w : World ι Store Event) (i : ι) : Option (BranchName × Option OpId × OpId) :=
  pending (own i w.trace)

/-- **A head is cleared**: its program passed the check, or it is a merge that is still to be judged. -/
def Cleared (env : Env) (w : World ι Store Event) (branch : BranchName) (head : Option OpId) : Prop :=
  ∀ id, head = some id → w.state.log.get id ≠ none ∧
    (env.typeChecks (w.state.log.replay id) = true ∨
      ∃ i parent, pendingOf w i = some (branch, parent, id))

/-- A cleared head stays cleared while the merge it may be is pending, or has passed. -/
theorem Cleared.later {head : Option OpId} (h : Cleared env w branch head)
    (hclosed : w.state.log.Closed) (hle : w.state.log.Le w'.state.log)
    (hpending : ∀ i parent id, head = some id → pendingOf w i = some (branch, parent, id) →
      pendingOf w' i = some (branch, parent, id) ∨
        env.typeChecks (w'.state.log.replay id) = true) : Cleared env w' branch head := by
  intro id hid
  obtain ⟨hlogged, hclear⟩ := h id hid
  refine ⟨hle.get_ne_none hlogged, ?_⟩
  rcases hclear with hpass | ⟨i, parent, hi⟩
  · left
    rw [OpLog.replay_of_le hclosed hle hlogged]
    exact hpass
  · rcases hpending i parent id hid hi with hstill | hpass
    · exact .inr ⟨i, parent, hstill⟩
    · exact .inl hpass

/-- **The heads are checked**: each is cleared, and so is each head that a pending merge landed on. -/
structure HeadsChecked (env : Env) (w : World ι Store Event) : Prop where
  known : ∀ i, Known env w.state.log (own i w.trace)
  heads : ∀ branch, Cleared env w branch (w.state.headOp branch)
  parents : ∀ i branch parent id, pendingOf w i = some (branch, parent, id) →
    Cleared env w branch parent

variable {parent : Option OpId}

/-- A merge that is pending was landed, and nothing has moved a head since. -/
theorem own_of_pendingOf {i : ι} (h : pendingOf w i = some (branch, parent, id)) :
    ∃ newer record filed older, record.opId = id ∧
      own i w.trace = newer ++ Event.landed branch parent record filed :: older ∧
        ∀ event ∈ newer, event.moves = none := by
  unfold pendingOf pending at h
  split at h
  · rename_i hown
    obtain ⟨rfl, rfl, rfl⟩ : _ ∧ _ ∧ _ := by simpa using h
    exact ⟨[], _, _, _, rfl, hown, fun _ he => by cases he⟩
  · rename_i hown
    obtain ⟨rfl, rfl, rfl⟩ : _ ∧ _ ∧ _ := by simpa using h
    refine ⟨[_], _, _, _, rfl, hown, ?_⟩
    intro event hevent
    rw [mem_singleton.mp hevent]
    rfl
  · cases h

theorem mem_standing_of_pendingOf {i : ι} (h : pendingOf w i = some (branch, parent, id)) :
    { caller := i, branch, parent, opId := id } ∈ standing w.trace := by
  obtain ⟨newer, record, filed, older, rfl, hown, hnewer⟩ := own_of_pendingOf h
  refine mem_standing_of_own hown fun event hevent => ?_
  have hstill := hnewer event hevent
  cases event with
  | rolledBack => cases hstill
  | _ => rfl

variable {events : List Event}

/-- What a pending merge is known to be: above the head it landed on, and logged. -/
theorem Known.of_pending {log : OpLog} (h : Known env log events)

    (hpending : pending events = some (branch, parent, id)) :
    log.get id ≠ none ∧ ∃ prev, parent = some prev ∧ Graph.Edge log.parentsOf id prev := by
  cases h with
  | unjudged hlogged hedge | judged hlogged hedge =>
    obtain ⟨rfl, rfl, rfl⟩ : _ ∧ _ ∧ _ := by simpa [pending] using hpending
    exact ⟨hlogged, _, rfl, hedge⟩
  | _ => cases hpending

variable {i : ι} {event : Event}

/-- What a gated caller can be seen doing to a head. -/
theorem GatedNext.moves (h : GatedNext events event) :
    event.moves = none ∨ (∃ branch parent record filed, event = .landed branch parent record filed) ∨
      ∃ branch found target, event = .rolledBack branch found target := by
  cases event with
  | landed branch parent record filed => exact .inr (.inl ⟨_, _, _, _, rfl⟩)
  | rolledBack branch found target => exact .inr (.inr ⟨_, _, _, rfl⟩)
  | pushed | journaled | created => simp [GatedNext] at h
  | _ => exact .inl rfl

/-- A gated caller takes back the merge that it has pending. -/
theorem Known.rolledBack {log : OpLog} (h : Known env log events)
    {found : Option OpId} {target : OpId} (hnext : GatedNext events (.rolledBack branch found target))
    (hcond : UncontendedAfter events (.rolledBack branch found target)) :
    ∃ id, pending events = some (branch, some target, id) ∧ found = some id := by
  cases h with
  | unjudged hlogged hedge | judged hlogged hedge =>
    obtain ⟨rfl, rfl⟩ := hnext
    exact ⟨_, rfl, hcond⟩
  | _ => exact hnext.elim

/-- Any other event leaves a pending merge pending, or settles it. -/
theorem Known.pending_or_passed {log log' : OpLog} (h : Known env log events)
    (h' : Known env log' (event :: events)) (hnext : GatedNext events event) (hback : event.takesBack = false)
    (hpending : pending events = some (branch, parent, id)) : pending (event :: events) = some (branch, parent, id) ∨
      env.typeChecks (log'.replay id) = true := by
  cases h with
  | unjudged hlogged hedge =>
    cases event with
    | judged => exact .inl hpending
    | rolledBack => cases hback
    | rollbackLost => cases h'
    | _ => exact hnext.elim
  | judged hlogged hedge =>
    cases event with
    | passed candidate =>
      obtain ⟨rfl, rfl, rfl⟩ : _ ∧ _ ∧ _ := by simpa [pending] using hpending
      cases h' with
      | settled _ hpass => exact .inr hpass
    | rolledBack => cases hback
    | rollbackLost => cases h'
    | _ => exact hnext.elim
  | _ => cases hpending

theorem pending_cons (h : pending (event :: events) = some (branch, parent, id)) :
    pending events = some (branch, parent, id) ∨
      ∃ record filed, event = .landed branch parent record filed ∧ record.opId = id := by
  unfold pending at h
  split at h
  · rename_i heq
    obtain ⟨rfl, rfl⟩ := List.cons.inj heq
    obtain ⟨rfl, rfl, rfl⟩ : _ ∧ _ ∧ _ := by simpa using h
    exact .inr ⟨_, _, rfl, rfl⟩
  · rename_i heq
    obtain ⟨rfl, rfl⟩ := List.cons.inj heq
    exact .inl h
  · cases h

theorem HeadsChecked.undisturbed (h : HeadsChecked env w) (hnext : GatedNext (own i w.trace) event)
    (hcond : Uncontended w.trace i event) : Undisturbed w.trace i event := by
  cases event with
  | rolledBack branch found target =>
    obtain ⟨id, hpending, rfl⟩ := (h.known i).rolledBack hnext hcond
    obtain ⟨newer, record, filed, older, rfl, hown, hnewer⟩ := own_of_pendingOf hpending
    exact ⟨_, latest_of_own hown hnewer, rfl, rfl, rfl⟩
  | pushed | journaled | created =>
    rcases hnext.moves with hmoves | ⟨_, _, _, _, heq⟩ | ⟨_, _, _, heq⟩
    · cases hmoves
    · cases heq
    · cases heq
  | _ => trivial

/-- **A step that takes nothing back** keeps the heads checked. -/
theorem HeadsChecked.step (h : HeadsChecked env w) (hwf : w.state.WellFormed env.digest)
    (hobserved : Observed env w.state w'.state (some event)) (htrace : w'.trace = (i, event) :: w.trace)
    (hnext : GatedNext (own i w.trace) event) (hcond : Uncontended w.trace i event)
    (hback : event.takesBack = false) : HeadsChecked env w' := by
  have hle := hobserved.grows
  have hother : ∀ j, j ≠ i → own j w'.trace = own j w.trace := by
    intro j hj
    rw [htrace, own_cons, if_neg (Ne.symm hj)]
  have hself : own i w'.trace = event :: own i w.trace := by rw [htrace, own_cons, if_pos rfl]
  have hknown := (h.known i).next hwf hobserved hnext hcond
  have hlater : ∀ branch head, Cleared env w branch head → Cleared env w' branch head := by
    intro branch head hclear
    refine hclear.later hwf.closed hle fun j parent id _ hpending => ?_
    by_cases hj : j = i
    · subst hj
      unfold pendingOf
      rw [hself]
      exact (h.known j).pending_or_passed hknown hnext hback hpending
    · unfold pendingOf
      rw [hother j hj]
      exact .inl hpending
  refine ⟨?_, ?_, ?_⟩
  · intro j
    by_cases hj : j = i
    · subst hj
      rw [hself]
      exact hknown
    · rw [hother j hj]
      exact (h.known j).le hwf.closed hle
  · intro branch
    rw [hobserved.heads]
    rcases hnext.moves with hmoves | ⟨moved, parent, record, filed, rfl⟩ | ⟨_, _, _, rfl⟩
    · have hstill : headAfter (some event) branch (w.state.headOp branch) = w.state.headOp branch := by
        unfold headAfter
        rw [bind_some, hmoves]
      rw [hstill]
      exact hlater branch _ (h.heads branch)
    · show Cleared env w' branch (if moved = branch then some record.opId else _)
      split
      · -- the operation was checked before it landed, or is pending now
        rename_i hbranch
        subst hbranch
        intro id hid
        rw [← some.inj hid]
        generalize hevents : own i w.trace = events at hknown hself
        cases hknown with
        | landed hlogged hpass => exact ⟨hlogged, .inl hpass⟩
        | @unjudged _ prev _ _ hlogged hedge =>
          refine ⟨hlogged, .inr ⟨i, some prev, ?_⟩⟩
          unfold pendingOf
          rw [hself]
          rfl
      · exact hlater branch _ (h.heads branch)
    · cases hback
  · intro j branch parent id hpending
    unfold pendingOf at hpending
    by_cases hj : j = i
    · subst hj
      rw [hself] at hpending
      rcases pending_cons hpending with hbefore | ⟨record, filed, rfl, _⟩
      · exact hlater branch parent (h.parents j branch parent id hbefore)
      · have hfound := (hobserved.holds _ rfl).1
        rw [← hfound]
        exact hlater branch _ (h.heads branch)
    · rw [hother j hj] at hpending
      exact hlater branch parent (h.parents j branch parent id hpending)

/-- **A rollback** keeps the heads checked: nothing that is still pending has landed on the merge that
is taken back. -/
theorem HeadsChecked.rollback (h : HeadsChecked env w) (hkept : LandingsKept w)
    (hwf : w.state.WellFormed env.digest) {found : Option OpId} {target : OpId}
    (hobserved : Observed env w.state w'.state (some (.rolledBack branch found target)))
    (htrace : w'.trace = (i, .rolledBack branch found target) :: w.trace)
    (hnext : GatedNext (own i w.trace) (.rolledBack branch found target))
    (hcond : Uncontended w.trace i (.rolledBack branch found target)) : HeadsChecked env w' := by
  have hle := hobserved.grows
  have hac := hwf.acyclic
  have hother : ∀ j, j ≠ i → own j w'.trace = own j w.trace := by
    intro j hj
    rw [htrace, own_cons, if_neg (Ne.symm hj)]
  have hself : own i w'.trace = .rolledBack branch found target :: own i w.trace := by
    rw [htrace, own_cons, if_pos rfl]
  obtain ⟨merge, hpending, rfl⟩ := (h.known i).rolledBack hnext hcond
  have hhead : w.state.headOp branch = some merge := (hobserved.holds _ rfl).1
  obtain ⟨_, prev, hprev, hedge⟩ := (h.known i).of_pending hpending
  obtain rfl : target = prev := some.inj hprev
  -- the other callers' pending merges are still pending, on every head but the merge itself
  have hlater : ∀ branch' head, (branch' = branch → head ≠ some merge) →
      Cleared env w branch' head → Cleared env w' branch' head := by
    intro branch' head hne hclear
    refine hclear.later hwf.closed hle fun j parent id hid hj => .inl ?_
    have hji : j ≠ i := by
      rintro rfl
      unfold pendingOf at hj
      rw [hpending] at hj
      obtain ⟨rfl, _, rfl⟩ : _ ∧ _ ∧ _ := by simpa using hj
      exact hne rfl hid
    unfold pendingOf
    rw [hother j hji]
    exact hj
  refine ⟨?_, ?_, ?_⟩
  · intro j
    by_cases hj : j = i
    · subst hj
      rw [hself]
      refine .takenBack ?_
      rw [hpending]
      exact some_ne_none _
    · rw [hother j hj]
      exact (h.known j).le hwf.closed hle
  · intro other
    rw [hobserved.heads]
    show Cleared env w' other (if branch = other then some target else _)
    split
    · rename_i hsame
      subst hsame
      refine hlater branch _ (fun _ hcycle => ?_) (h.parents i branch _ merge hpending)
      rw [some.inj hcycle] at hedge
      exact hac merge (.single hedge)
    · rename_i hne
      exact hlater other _ (fun hsame => absurd hsame.symm hne) (h.heads other)
  · intro j branch' parent id hj
    have hji : j ≠ i := by
      rintro rfl
      unfold pendingOf at hj
      rw [hself] at hj
      cases hj
    unfold pendingOf at hj
    rw [hother j hji] at hj
    refine hlater branch' parent ?_ (h.parents j branch' parent id hj)
    rintro rfl rfl
    -- a merge on top of the head would also be below it
    obtain ⟨head, hhead', hdown⟩ := hkept.reached _ (mem_standing_of_pendingOf hj)
    obtain ⟨_, prev', hprev', hup⟩ := (h.known j).of_pending hj
    obtain rfl : merge = prev' := some.inj hprev'
    obtain rfl : merge = head := some.inj (hhead.symm.trans hhead')
    exact hac id (.head' hup hdown)

end Cleared

/-! ## What a gated caller does -/

section Callers

variable {ι : Type} [DecidableEq ι] {env : Env} {i : ι} {w : World ι Store Event}

/-- How a gated call ends. -/
def GatedEnd (branch : BranchName) (result : Except StoreError Outcome) (events : List Event) : Prop :=
  ∃ landed : Except StoreError OpId, result = landed.map .landed ∧
    (PlannedLanding branch landed events ∨ MergeEnd branch landed events)

/-- The automaton, as a guard. -/
abbrev gatedGuard : ι → List Event → Event → Prop := fun _ => GatedNext

omit [DecidableEq ι] in
theorem mayPlan_gated (branch : BranchName) : MayPlan (gatedGuard : ι → _) i branch [] where
  plan _ _ := trivial
  pass _ _ _ := trivial
  land _ _ _ _ _ := ⟨rfl, rfl⟩

omit [DecidableEq ι] in
theorem mayMerge_gated (branch : BranchName) (op : Operation) (transition : StageTransition) :
    MayMerge (gatedGuard : ι → _) i branch op transition [] where
  begin _ := trivial
  land _ _ _ _ _ _ := rfl
  judge _ _ _ _ _ _ := rfl
  pass _ _ _ _ _ _ := rfl
  back _ _ _ _ _ _ h := by
    rcases h with rfl | ⟨_, _, rfl⟩ <;> exact ⟨rfl, rfl⟩
  lost _ _ _ _ _ h := by
    rcases h with rfl | ⟨_, _, rfl⟩ <;> exact trivial

/-- **A gated call follows the automaton.** -/
theorem sat_gated {call : Call} (hgated : call.isGated = true)
    (hbranch : call.branch = some branch) (hown : own i w.trace = []) :
    Sat (spec env gatedGuard) i (Seen i w (GatedEnd branch)) (call.prog env).run w := by
  have hlanded : ∀ {p : StoreProg OpId} {shape : Except StoreError OpId → List Event → Prop},
      (∀ landed events, shape landed events →
        PlannedLanding branch landed events ∨ MergeEnd branch landed events) →
      Sat (spec env gatedGuard) i (Seen i w shape) p.run w →
        Sat (spec env gatedGuard) i (Seen i w (GatedEnd branch)) (Outcome.landed <$> p).run w := by
    intro p shape hshape hp
    refine sat_bind_seen hp ?_ ?_
    · exact fun opId events w' h _ => sat_pure_seen ⟨.ok opId, rfl, hshape _ _ h⟩
    · exact fun e events h => ⟨.error e, rfl, hshape _ _ h⟩
  have hplanned := fun {p : StoreProg OpId} => @hlanded p _ fun _ _ h => .inl h
  have hmay : MayPlan gatedGuard i branch (own i w.trace) := hown ▸ mayPlan_gated branch
  cases call with
  | planAndApply b plan intent =>
    obtain rfl := some.inj hbranch
    exact hplanned (sat_planAndApply hmay)
  | applyOperationGated b op t intent =>
    obtain rfl := some.inj hbranch
    exact hplanned (sat_applyOperationGated hmay)
  | replaceMatchArm | renameLocal | inlineLet =>
    obtain rfl := some.inj hbranch
    exact hplanned (sat_applyTransform hmay)
  | promote b candidate budgetOf =>
    obtain rfl := some.inj hbranch
    exact hplanned (sat_promoteCandidate hmay)
  | applyMergeOpGated b op t =>
    obtain rfl := some.inj hbranch
    refine hlanded (fun _ _ h => .inr h) (sat_applyMergeOpGated ?_)
    rw [hown]
    exact mayMerge_gated b op t
  | _ => cases hgated

/-- A gated call that has returned has no merge pending. -/
theorem pending_of_gatedEnd {log : OpLog}
    {result : Except StoreError Outcome} {events : List Event} (hknown : Known env log events)
    (h : GatedEnd branch result events) : pending events = none := by
  obtain ⟨landed, _, hplanned | hmerge⟩ := h
  · cases landed with
    | ok id =>
      obtain ⟨_, _, _, _, _, _, rfl⟩ := hplanned
      rfl
    | error e =>
      obtain ⟨_, _, _, hsuffix⟩ := hplanned
      simp only [suffix_cons_iff, suffix_nil] at hsuffix
      rcases hsuffix with rfl | rfl | rfl <;> rfl
  · cases landed with
    | ok id =>
      obtain ⟨_, _, _, _, _, _, _, rfl⟩ := hmerge
      rfl
    | error e =>
      cases hmerge with
      | refused head parent record filed verdict back hverdict hback =>
        cases head with
        | some prev =>
          rcases hverdict with rfl | ⟨_, _, rfl⟩ <;>
            rcases hback with ⟨_, rfl⟩ | rfl <;> rfl
        | none =>
          -- a merge that is not taken back would have landed without a head
          obtain rfl : back = [] := hback
          rcases hverdict with rfl | ⟨_, _, rfl⟩ <;> cases hknown
      | _ => rfl

/-- What a gated call returns is what it has landed, and that has passed. -/
theorem passed_of_gatedEnd {log : OpLog} {events : List Event}
    (hknown : Known env log events) (h : GatedEnd branch (.ok (.landed id)) events) :
    env.typeChecks (log.replay id) = true := by
  obtain ⟨landed, hlanded, hend⟩ := h
  cases landed with
  | error e => cases hlanded
  | ok opId =>
    obtain rfl : id = opId := by simpa [Except.map] using hlanded
    rcases hend with ⟨_, _, _, _, _, rfl, rfl⟩ | ⟨_, _, _, _, _, _, rfl, rfl⟩
    · cases hknown with
      | landed hlogged hpass => exact hpass
    · cases hknown with
      | settled hlogged hpass => exact hpass

/-! ## Every run -/

variable {store : Store} {calls : ι → Call}

theorem gatedCallers_sound (hwf : store.WellFormed env.digest) (hgated : ∀ i, (calls i).isGated = true) :
    (callers env store calls).Sound (spec env gatedGuard) fun i result w' =>
      ∃ branch, (calls i).branch = some branch ∧
        Seen i { state := store, trace := [] } (GatedEnd branch) result w' := by
  refine ⟨hwf, fun i => ⟨_, Grew.refl i _, ?_⟩⟩
  obtain ⟨branch, hbranch⟩ : ∃ branch, (calls i).branch = some branch := by
    have hcall := hgated i
    cases hi : calls i with
    | retroBlock =>
      rw [hi] at hcall
      cases hcall
    | _ => exact ⟨_, rfl⟩
  exact (sat_gated (hgated i) hbranch rfl).mono fun _ _ h => ⟨branch, hbranch, h⟩

/-- A step that is not seen keeps the heads checked. -/
theorem HeadsChecked.unseen {w' : World ι Store Event} (h : HeadsChecked env w)
    (hwf : w.state.WellFormed env.digest) (hobserved : Observed env w.state w'.state none)
    (htrace : w'.trace = w.trace) : HeadsChecked env w' := by
  have hsame : ∀ j, pendingOf w' j = pendingOf w j := fun j => by
    unfold pendingOf
    rw [htrace]
  have hlater : ∀ branch head, Cleared env w branch head → Cleared env w' branch head :=
    fun branch head hclear => hclear.later hwf.closed hobserved.grows
      fun j parent id _ hj => .inl ((hsame j).trans hj)
  refine ⟨fun j => ?_, fun branch => ?_, fun j branch parent id hj => ?_⟩
  · rw [htrace]
    exact (h.known j).le hwf.closed hobserved.grows
  · rw [hobserved.heads]
    exact hlater branch _ (h.heads branch)
  · exact hlater branch parent (h.parents j branch parent id ((hsame j).symm.trans hj))

/-- **Every uncontended run** keeps the heads checked. -/
theorem headsChecked_exec (hwf : store.WellFormed env.digest) (hgated : ∀ i, (calls i).isGated = true)
    (hstart : ∀ branch id, store.headOp branch = some id → env.typeChecks (store.log.replay id) = true)
    (schedule : List (ι × Bool)) (hcond : AllMeet Uncontended ((callers env store calls).exec schedule).world.trace) :
    HeadsChecked env ((callers env store calls).exec schedule).world := by
  have hfirst : LandingsKept (callers env store calls).world ∧
      HeadsChecked env (callers env store calls).world := by
    refine ⟨landingsKept_start, fun _ => .idle, ?_, fun _ _ _ _ hi => by cases hi⟩
    exact fun branch id hid => ⟨hwf.heads branch id hid, .inl (hstart branch id hid)⟩
  have hkeeps : ∀ i (w w' : World ι Store Event) (label : Option Event),
      w.state.WellFormed env.digest → w'.state.WellFormed env.digest →
      (spec env gatedGuard).guar i w w' → w'.trace = label.toList.map (Prod.mk i) ++ w.trace →
      AllMeet Uncontended w'.trace → LandingsKept w ∧ HeadsChecked env w →
        LandingsKept w' ∧ HeadsChecked env w' := ?_
  · exact ((gatedCallers_sound hwf hgated).keeps hkeeps hfirst schedule
      (hcond.mono fun _ _ _ h => h.promised) hcond).2
  rintro i w w' _ hinv _ ⟨label, htrace, hobserved, hguard⟩ _ hcond' ⟨hkept, hchecked⟩
  rw [htrace] at hcond'
  cases label with
  | none =>
    exact ⟨hkept.step hinv hobserved htrace of_unseen, hchecked.unseen hinv hobserved htrace⟩
  | some event =>
    have hnext := hguard event rfl
    have hmeets := hcond'.of_step rfl
    refine ⟨hkept.step hinv hobserved htrace ?_, ?_⟩
    · intro other hother
      rw [← some.inj hother]
      exact hchecked.undisturbed hnext hmeets
    · cases event with
      | rolledBack branch found target =>
        exact hchecked.rollback hkept hinv hobserved htrace hnext hmeets
      | _ => exact hchecked.step hinv hobserved htrace hnext hmeets rfl

/-- **Always a checked head.** In every uncontended run of gated callers, from heads that were checked:
a branch's head is a program that passed the check, or a merge whose caller has not returned yet; and
what a call returns has passed. -/
theorem head_checked (hwf : store.WellFormed env.digest) (hgated : ∀ i, (calls i).isGated = true)
    (hstart : ∀ branch id, store.headOp branch = some id → env.typeChecks (store.log.replay id) = true)
    (schedule : List (ι × Bool)) (hcond : AllMeet Uncontended ((callers env store calls).exec schedule).world.trace) :
    (∀ branch id, ((callers env store calls).exec schedule).world.state.headOp branch = some id →
        env.typeChecks (((callers env store calls).exec schedule).world.state.log.replay id) = true ∨
          ∃ i parent, pendingOf ((callers env store calls).exec schedule).world i = some (branch, parent, id) ∧
              (((callers env store calls).exec schedule).pool i).returned = none) ∧
      ∀ i id, (((callers env store calls).exec schedule).pool i).returned = some (.ok (.landed id)) →
        env.typeChecks (((callers env store calls).exec schedule).world.state.log.replay id) = true := by
  have hchecked := headsChecked_exec hwf hgated hstart schedule hcond
  obtain ⟨_, hthreads⟩ := (gatedCallers_sound hwf hgated).exec schedule
    (hcond.mono fun _ _ _ h => h.promised)
  generalize (callers env store calls).exec schedule = c at hchecked hthreads ⊢
  have hend : ∀ i result, (c.pool i).returned = some result →
      ∃ branch, GatedEnd branch result (own i c.world.trace) := by
    intro i result hreturned
    obtain ⟨w, hrely, hsat⟩ := hthreads i
    rw [Prog.eq_ret_of_returned hreturned] at hsat
    obtain ⟨branch, _, events, hgrew, hshape⟩ := hsat
    refine ⟨branch, ?_⟩
    rw [hrely.own_eq, hgrew.2]
    simpa [own] using hshape
  refine ⟨fun branch id hid => ?_, fun i id hreturned => ?_⟩
  · refine ((hchecked.heads branch) id hid).2.imp_right ?_
    rintro ⟨i, parent, hpending⟩
    refine ⟨i, parent, hpending, ?_⟩
    cases hreturned : (c.pool i).returned with
    | none => rfl
    | some result =>
      obtain ⟨_, hend⟩ := hend i result hreturned
      have hnone := pending_of_gatedEnd (hchecked.known i) hend
      cases hnone.symm.trans hpending
  · obtain ⟨_, hend⟩ := hend i _ hreturned
    exact passed_of_gatedEnd (hchecked.known i) hend

end Callers

/-! ## Two checks on one head -/

/-- Short ids for an operation, one on top of it, and one on top of both. -/
def checkedTable : List (CanonicalForm × OpId) :=
  [((Operation.new (.addType "f" "s1" none) []).canonicalForm, "g"),
    ((Operation.new (.addType "a" "s2" none) ["g"]).canonicalForm, "a"),
    ((Operation.new (.addType "b" "s3" none) ["a"]).canonicalForm, "b")]

noncomputable def checkedEnv (typeChecks : HeadMap → Bool) : Env where
  digest := .ofTable checkedTable (by decide) (by decide)
  typeChecks := typeChecks
  locksAgree := fun _ => true
  semanticMerge := fun _ _ _ _ _ _ => none
  manifestOk := fun _ => true

/-- Three operations on one branch, each checked. -/
def checkedCalls : Fin 3 → Call
  | 0 => .planAndApply "main" (fun _ => (.new (.addType "f" "s1" none) [], .create "f" "s1")) none
  | 1 => .planAndApply "main" (fun _ => (.new (.addType "a" "s2" none) [], .create "a" "s2")) none
  | 2 => .planAndApply "main" (fun _ => (.new (.addType "b" "s3" none) [], .create "b" "s3")) none

/-- One after another, they leave a checked head. -/
theorem head_checked_sequential :
    let c := (callers (checkedEnv fun map => map.contains "f") .empty checkedCalls).exec
      (replicate 9 (0, true) ++ replicate 9 (1, true) ++ replicate 9 (2, true))
    (∀ branch id, c.world.state.headOp branch = some id →
      (checkedEnv fun map => map.contains "f").typeChecks (c.world.state.log.replay id) = true ∨
        ∃ i parent, pendingOf c.world i = some (branch, parent, id) ∧
          (c.pool i).returned = none) ∧
      ∀ i id, (c.pool i).returned = some (.ok (.landed id)) →
        (checkedEnv fun map => map.contains "f").typeChecks (c.world.state.log.replay id) = true :=
  head_checked (Store.wellFormed_empty _) (by decide)
    (fun branch id hid => by simp [Store.empty, Store.headOp, Store.getBranch] at hid) _ (by decide)

/-- A check that refuses `a` and `b` in one program. -/
noncomputable def apartEnv : Env := checkedEnv fun map => !(map.contains "a" && map.contains "b")

/-- The third caller has had its operation checked on the first one's head, and lands it on the second
one's. -/
noncomputable def checkedApart : Config (Fin 3) Store Event Bool (Except StoreError Outcome) :=
  (callers apartEnv .empty checkedCalls).exec
    (replicate 9 (0, true) ++ replicate 2 (2, true) ++ replicate 9 (1, true) ++
      replicate 7 (2, true))

/-- **Two operations that passed the check do not pass it together**: every call has returned, and the
head is a program that the check refuses. -/
theorem checkedApart_refused : apartEnv.typeChecks (Store.empty.headMap "main") = true ∧
      (∀ i, (checkedApart.pool i).returned.isSome) ∧ checkedApart.world.state.headOp "main" = some "b" ∧
          apartEnv.typeChecks (checkedApart.world.state.headMap "main") = false := by
  refine ⟨by decide, by decide, by decide, by decide⟩

end LexLang
