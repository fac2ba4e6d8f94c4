/-
# LexLang.Store.Observe — what one step of a call can do to the store

Every step of every call is either unseen, or is seen as one `Event`. `Observed` says once what a step
can do: it keeps the store well-formed, the log only grows, a branch head moves exactly as the event
says, and the event tells the truth about the state it is seen in.

`spec` is the contract of the calls with each other: each guarantees `Observed` steps, and all that
a call relies on is that the log grows and that its own events are its own. The rules take a guard
`G` on the events of one caller, which says what the caller's earlier events must have been.
-/
import LexLang.Store.Commit

namespace LexLang

open LexLang.Vcs LexLang.Concurrent

/-! ## Events and the state -/

/-- Where an event leaves a branch's head. -/
def Event.moves : Event → Option (BranchName × Option OpId)
  | .landed branch _ record _ => some (branch, some record.opId)
  | .rolledBack branch _ target => some (branch, some target)
  | .pushed branch _ _ target _ => some (branch, some target)
  | .journaled branch _ written => some (branch, written)
  | .created branch _ head => some (branch, head)
  | .planned _ _ _ | .passed _ | .merging _ _ | .judged _ _ _ | .rollbackLost _
  | .reported _ _ _ _ _ => none

/-- The head of a branch after a step that was seen so. -/
def headAfter (label : Option Event) (branch : BranchName) (head : Option OpId) : Option OpId :=
  match label.bind Event.moves with
  | some (moved, target) => if moved = branch then target else head
  | none => head

/-- **What an event says of the state it is seen in.** -/
def Event.Holds (env : Env) (store : Store) : Event → Prop
  | .planned branch head map | .judged branch head map =>
    store.headOp branch = head ∧ map = store.headMap branch
  | .passed candidate => env.typeChecks candidate = true
  | .landed branch parent record filed =>
    store.headOp branch = parent ∧ store.log.get record.opId = some filed ∧
      record.op.opId env.digest = record.opId ∧
        ∃ log, checkParents log parent record.op.parents = .ok ()
  | .rolledBack branch found target => store.headOp branch = found ∧ store.log.get target ≠ none
  | .pushed branch found expected target known =>
    store.headOp branch = found ∧ known = (store.log.get target).isSome ∧
      ∀ cur, expected = some cur → store.log.Reach target cur
  | .merging branch found | .journaled branch found _ | .created branch found _ =>
    store.headOp branch = found
  | .reported _ _ _ _ log => store.log = log
  | .rollbackLost _ => True

/-- What the callers promise of an event: a head is pushed after its operations are. -/
def Event.Promised : Event → Prop
  | .pushed _ _ _ _ known => known = true
  | _ => True

instance : DecidablePred Event.Promised
  | .planned .. | .passed .. | .merging .. | .landed .. | .judged .. | .rolledBack .. | .rollbackLost ..
  | .pushed .. | .journaled .. | .created .. | .reported .. => by
    dsimp only [Event.Promised]
    infer_instance

/-- **What one step can do to the store.** -/
structure Observed (env : Env) (store store' : Store) (label : Option Event) : Prop where
  wellFormed : store'.WellFormed env.digest
  grows : store.log.Le store'.log
  heads : ∀ branch, store'.headOp branch = headAfter label branch (store.headOp branch)
  holds : ∀ event, label = some event → event.Holds env store

section Observed

variable {env : Env} {store store' : Store}

/-- Whatever is asked of the events of an unseen step holds. -/
theorem of_unseen {P : Event → Prop} : ∀ event, (none : Option Event) = some event → P event := by
  intro event h
  cases h

/-- A step that leaves the log, the heads and the snapshots alone is unseen. -/
theorem Observed.aside (hwf : store.WellFormed env.digest) (hlog : store'.log = store.log)
    (hheads : ∀ branch, store'.headOp branch = store.headOp branch)
    (hsnapshots : store'.snapshots = store.snapshots) : Observed env store store' none where
  wellFormed := hwf.congr hlog hheads hsnapshots
  grows := by
    rw [hlog]
    exact OpLog.Le.refl _
  heads := hheads
  holds := of_unseen

theorem Observed.still (hwf : store.WellFormed env.digest) {label : Option Event}
    (hmoves : label.bind Event.moves = none) (hholds : ∀ event, label = some event → event.Holds env store) :
    Observed env store store label where
  wellFormed := hwf
  grows := OpLog.Le.refl _
  heads := fun branch => by
    unfold headAfter
    rw [hmoves]
  holds := hholds

/-- **A branch file is written**: seen as an event that says where its head is now. -/
theorem Observed.writeBranch (hwf : store.WellFormed env.digest) {name : BranchName}
    {branch : Branch} {event : Event} (hmoves : event.moves = some (name, branch.headOp))
    (hlogged : ∀ head, branch.headOp = some head → store.log.get head ≠ none) (hholds : event.Holds env store) :
    Observed env store (store.writeBranch name branch) (some event) where
  wellFormed := hwf.writeBranch hlogged
  grows := OpLog.Le.refl _
  heads := fun other => by
    show Store.headOp { store with branches := _ } other = _
    rw [Store.headOp_insert]
    unfold headAfter
    rw [Option.bind_some, hmoves]
  holds := fun _ h => Option.some.inj h ▸ hholds

end Observed

/-! ## The contract -/

section Contract

variable {ι : Type} [DecidableEq ι]

/-- The events of one caller, newest first. -/
def own (i : ι) (trace : List (ι × Event)) : List Event :=
  trace.filterMap fun entry => if entry.1 = i then some entry.2 else none

theorem own_cons (i j : ι) (event : Event) (older : List (ι × Event)) :
    own i ((j, event) :: older) = if j = i then event :: own i older else own i older := by
  unfold own
  rw [List.filterMap_cons]
  split <;> rename_i h <;> split at h <;> simp_all

theorem own_append (i : ι) (first second : List (ι × Event)) :
    own i (first ++ second) = own i first ++ own i second := List.filterMap_append

theorem own_label (i j : ι) (label : Option Event) :
    own i (label.toList.map (Prod.mk j)) = if j = i then label.toList else [] := by
  unfold own
  cases label with
  | none => simp
  | some event => by_cases h : j = i <;> simp [h]

/-- **Between two worlds the log has grown, and the caller `i` has been seen doing `events`.** -/
def Grew (i : ι) (events : List Event) (w w' : World ι Store Event) : Prop :=
  w.state.log.Le w'.state.log ∧ own i w'.trace = events ++ own i w.trace

theorem Grew.refl (i : ι) (w : World ι Store Event) : Grew i [] w w := ⟨OpLog.Le.refl _, rfl⟩

variable {w' : World ι Store Event}

theorem Grew.trans {i : ι} {events events' : List Event} {w w'' : World ι Store Event}
    (h : Grew i events w w') (h' : Grew i events' w' w'') : Grew i (events' ++ events) w w'' :=
  ⟨h.1.trans h'.1, by rw [h'.2, h.2, List.append_assoc]⟩

theorem Grew.own_eq {i : ι} {w : World ι Store Event} (h : Grew i [] w w') : own i w'.trace = own i w.trace := h.2

/-- **What the calls owe each other**, with a guard on the events of each caller. -/
def spec (env : Env) (G : ι → List Event → Event → Prop) : Spec ι Store Event where
  inv w := w.state.WellFormed env.digest
  meets _ _ event := event.Promised
  guar i w w' := ∃ label : Option Event, w'.trace = label.toList.map (Prod.mk i) ++ w.trace ∧
    Observed env w.state w'.state label ∧
      ∀ event, label = some event → G i (own i w.trace) event
  rely i w w' := Grew i [] w w'
  rely_refl := Grew.refl
  rely_trans _ _ _ _ h h' := h.trans h'
  rely_of_guar := by
    intro i j w w' hij ⟨label, htrace, hobserved, _⟩
    refine ⟨hobserved.grows, ?_⟩
    rw [htrace, own_append, own_label, if_neg (Ne.symm hij)]

variable {env : Env} {G : ι → List Event → Event → Prop} {i : ι} {ρ ρ' : Type}
  {w : World ι Store Event}

/-- **The rule of one step.** -/
theorem sat_atom {act : Bool → Store → Store} {label : Bool → Store → Option Event}
    {next : Bool → Store → Prog Store Event Bool ρ} {Q : ρ → World ι Store Event → Prop}
    (h : ∀ w', Grew i [] w w' → w'.state.WellFormed env.digest → ∀ ok,
      (∀ event, label ok w'.state = some event → event.Promised) →
        Observed env w'.state (act ok w'.state) (label ok w'.state) ∧
          (∀ event, label ok w'.state = some event → G i (own i w.trace) event) ∧
            ∀ w'', Grew i (label ok w'.state).toList w w'' → w''.state = act ok w'.state →
              Sat (spec env G) i Q (next ok w'.state) w'') : Sat (spec env G) i Q (.atom act label next) w := by
  intro w' hrely hinv ok hmeets
  obtain ⟨hobserved, hguard, hnext⟩ := h w' hrely hinv ok hmeets
  have hgrew : Grew i (label ok w'.state).toList w' (w'.step i act label ok) := by
    refine ⟨hobserved.grows, ?_⟩
    show own i (_ ++ w'.trace) = _
    rw [own_append, own_label, if_pos rfl]
  refine ⟨hobserved.wellFormed, ⟨_, rfl, hobserved, ?_⟩, hnext _ ?_ rfl⟩
  · intro event hevent
    rw [hrely.own_eq]
    exact hguard event hevent
  · simpa using Grew.trans hrely hgrew

variable {P : Except StoreError ρ → World ι Store Event → Prop}
  {Q : Except StoreError ρ' → World ι Store Event → Prop}

/-- **Sequencing of programs that may fail.** -/
theorem sat_bind {p : StoreProg ρ} {f : ρ → StoreProg ρ'} (hp : Sat (spec env G) i P p.run w)
    (hok : ∀ a w', P (.ok a) w' → Sat (spec env G) i Q (f a).run w')
    (herror : ∀ e w', P (.error e) w' → Q (.error e) w') : Sat (spec env G) i Q (p >>= f).run w := by
  refine Sat.bind hp fun result w' hresult => ?_
  cases result with
  | ok a => exact hok a w' hresult
  | error e => exact herror e w' hresult

/-- … and of one whose error is handled. -/
theorem sat_attempt {p : StoreProg ρ} {f : Except StoreError ρ → StoreProg ρ'}

    (hp : Sat (spec env G) i P p.run w) (hnext : ∀ result w', P result w' → Sat (spec env G) i Q (f result).run w') :
    Sat (spec env G) i Q (attempt p >>= f).run w := by
  have hattempt : Sat (spec env G) i
      (fun result w' => ∃ kept, result = .ok kept ∧ P kept w') (attempt p).run w :=
    Sat.bind hp fun kept _ hkept => ⟨kept, rfl, hkept⟩
  refine sat_bind hattempt ?_ ?_
  · rintro result w' ⟨kept, hresult, hkept⟩
    rw [Except.ok.inj hresult]
    exact hnext kept w' hkept
  · rintro e w' ⟨kept, hresult, _⟩
    cases hresult

/-! ## Unseen accesses -/

/-- What an unseen access leaves: the log has grown, the caller was not seen, and an answer is what
the access returns on some well-formed state that it leaves as it is now. -/
def Unseen (env : Env) (i : ι) (w : World ι Store Event)
    (act : Store → Except StoreError ρ × Store) (result : Except StoreError ρ)
    (w' : World ι Store Event) : Prop :=
  Grew i [] w w' ∧ ∀ a, result = .ok a →
    ∃ store, store.WellFormed env.digest ∧ act store = (.ok a, w'.state)

theorem sat_unseen {act : Store → Except StoreError ρ × Store}
    (hact : ∀ store, store.WellFormed env.digest → Observed env store (act store).2 none) :
    Sat (spec env G) i (Unseen env i w act) (access act fun _ _ => none).run w := by
  refine sat_atom fun w' hgrew hwf ok _ => ?_
  cases ok with
  | false =>
    refine ⟨.still hwf rfl of_unseen, of_unseen, ?_⟩
    exact fun w'' hgrew' _ => ⟨hgrew', fun a ha => by cases ha⟩
  | true =>
    refine ⟨hact _ hwf, of_unseen, ?_⟩
    exact fun w'' hgrew' hstate => ⟨hgrew', fun a ha => ⟨w'.state, hwf, Prod.ext ha hstate.symm⟩⟩

theorem sat_query {read : Store → Except StoreError ρ} : Sat (spec env G) i
      (fun result w' => Grew i [] w w' ∧ ∀ a, result = .ok a → w'.state.WellFormed env.digest ∧ read w'.state = .ok a)
      (query read).run w := by
  have hunseen : ∀ store : Store, store.WellFormed env.digest →
      Observed env store (read store, store).2 none :=
    fun store hwf => .still hwf rfl of_unseen
  refine (sat_unseen hunseen).mono fun result w' h => ⟨h.1, fun a ha => ?_⟩
  obtain ⟨store, hwf, hact⟩ := h.2 a ha
  obtain ⟨hread, rfl⟩ := Prod.mk.inj hact
  exact ⟨hwf, hread⟩

/-- A write next to the log, the heads and the snapshots. -/
theorem sat_update {write : Store → Store} (hlog : ∀ store, (write store).log = store.log)
    (hheads : ∀ store branch, (write store).headOp branch = store.headOp branch)
    (hsnapshots : ∀ store, (write store).snapshots = store.snapshots) :
    Sat (spec env G) i (fun _ w' => Grew i [] w w') (update write).run w :=
  (sat_unseen fun store hwf =>
    .aside hwf (hlog store) (hheads store) (hsnapshots store)).mono fun _ _ h => h.1

end Contract

end LexLang
