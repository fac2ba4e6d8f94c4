/-
# LexLang.Store.Update — a landed operation replaces what it says it replaces

Callers that land single operations, interleaved in any way. A caller plans from the head map it reads,
and its transition says which stage it replaces; the retry loop lands the same transition on whatever
head it finds.

`viewOf` is what a caller believes of its branch: the map it planned from, with its own landings
since, and beside it what the others have landed there since.
-/
import LexLang.Store.Calls

namespace LexLang

open LexLang.Vcs LexLang.Concurrent
open List Option

/-! ## What a transition replaces -/

/-- The sig a transition replaces or removes, and the stage it says the sig had. -/
def Vcs.StageTransition.expects : StageTransition → Option (SigId × StageId)
  | .replace sigId fromStage _ => some (sigId, fromStage)
  | .remove sigId last => some (sigId, last)
  | _ => none

/-- **A landing was exact**: the head it landed on had the stage that its transition replaces. -/
def Event.Exact (log : OpLog) : Event → Prop
  | .landed _ parent record _ =>
    ∀ entry, record.produces.expects = some entry → (log.replayHead parent)[entry.1]? = some entry.2
  | _ => True

instance (log : OpLog) : (event : Event) → Decidable (event.Exact log)
  | .landed _ _ record _ => inferInstanceAs (Decidable (∀ entry ∈ record.produces.expects, _))
  | .planned .. | .passed .. | .merging .. | .judged .. | .rolledBack .. | .rollbackLost .. | .pushed ..
  | .journaled .. | .created .. | .reported .. => .isTrue trivial

/-! ## What a caller believes -/

/-- **What a caller believes of its branch**: the map, and what others have landed since it was
planned from. -/
structure View where
  branch : BranchName
  map : HeadMap
  others : List StageTransition

/-- An operation lands, the caller's own or another's. -/
def View.land (view : View) (branch : BranchName) (mine : Bool) (t : StageTransition) : View :=
  if view.branch = branch then
    if mine then { view with map := applyTransition view.map t }
    else { view with others := t :: view.others }
  else view

section Views

variable {ι : Type} [DecidableEq ι]

/-- The view of a caller after a run. -/
def viewOf (i : ι) : List (ι × Event) → Option View
  | [] => none
  | (j, .planned branch _ map) :: older =>
    if j = i then some { branch, map, others := [] } else viewOf i older
  | (j, .landed branch _ _ filed) :: older =>
    (viewOf i older).map fun view => view.land branch (j = i) filed.produces
  | _ :: older => viewOf i older

/-- **What a landing has to find**: an operation with at most one parent; and the stage that it
replaces in its caller's view, where nobody else has written the sig since. -/
def UpToDate (older : List (ι × Event)) (i : ι) : Event → Prop
  | .landed branch _ record filed =>
    filed.op.parents.length ≤ 1 ∧
      ∀ entry ∈ record.produces.expects, ∃ view ∈ viewOf i older,
        view.branch = branch ∧ view.map[entry.1]? = some entry.2 ∧
          ∀ t ∈ view.others, t.writes entry.1 = none
  | event => event.Promised

instance (older : List (ι × Event)) (i : ι) : (event : Event) → Decidable (UpToDate older i event)
  | .planned .. | .passed .. | .merging .. | .landed .. | .judged .. | .rolledBack .. | .rollbackLost ..
  | .pushed .. | .journaled .. | .created .. | .reported .. => by
    dsimp only [UpToDate]
    infer_instance

theorem UpToDate.promised {older : List (ι × Event)} {i : ι} {event : Event}
    (h : UpToDate older i event) : event.Promised := by
  cases event with
  | pushed => exact h
  | _ => trivial

/-- **A view is right** about every sig that no other caller has written since. -/
def ViewsRight (w : World ι Store Event) : Prop :=
  ∀ i, ∀ view ∈ viewOf i w.trace, ∀ sig, (∀ t ∈ view.others, t.writes sig = none) →
    (w.state.headMap view.branch)[sig]? = view.map[sig]?

variable {env : Env} {w w' : World ι Store Event}

variable {label : Option Event} {branch : BranchName}

theorem headMap_of_still {store store' : Store}
    (hwf : store.WellFormed env.digest) (hobserved : Observed env store store' label)
    (hstill : headAfter label branch (store.headOp branch) = store.headOp branch) :
    store'.headMap branch = store.headMap branch := by
  unfold Store.headMap
  rw [hobserved.heads, hstill]
  exact replayHead_of_le hwf.closed hobserved.grows (hwf.logged branch)

theorem headMap_of_landed {store store' : Store} (hwf : store.WellFormed env.digest)
    {parent : Option OpId} {record filed : OperationRecord}
    (hobserved : Observed env store store' (some (.landed branch parent record filed)))
    (hlength : filed.op.parents.length ≤ 1) :
    store'.headMap branch = applyTransition (store.headMap branch) filed.produces := by
  have hholds := hobserved.holds _ rfl
  have hhead : store'.headOp branch = some record.opId := by
    rw [hobserved.heads]
    show (if branch = branch then some record.opId else _) = _
    rw [if_pos rfl]
  have hlogged : store.log.get record.opId ≠ none := hholds.2.1 ▸ some_ne_none filed
  unfold Store.headMap
  rw [hhead, hholds.1]
  show store'.log.replay record.opId = _
  rw [OpLog.replay_of_le hwf.closed hobserved.grows hlogged, replay_of_landed hwf hholds hlength]

/-- **A landing keeps the views right**, the caller's own and the others'. -/
theorem View.land_right {view : View} {mine : Bool} {t : StageTransition} {map map' : HeadMap} {sig : SigId}
    (hright : (∀ u ∈ view.others, u.writes sig = none) → map[sig]? = view.map[sig]?)
    (hland : if view.branch = branch then map' = applyTransition map t else map' = map)
    (hothers : ∀ u ∈ (view.land branch mine t).others, u.writes sig = none) :
    map'[sig]? = (view.land branch mine t).map[sig]? := by
  unfold View.land at hothers ⊢
  split at hland
  · rename_i hbranch
    subst hland
    rw [if_pos hbranch] at hothers ⊢
    rw [getElem?_applyTransition]
    cases mine with
    | true =>
      show _ = (applyTransition view.map t)[sig]?
      rw [getElem?_applyTransition, hright hothers]
    | false =>
      have hunwritten : t.writes sig = none := hothers t mem_cons_self
      rw [hunwritten]
      exact hright fun u hu => hothers u (mem_cons_of_mem _ hu)
  · rename_i hbranch
    subst hland
    rw [if_neg hbranch] at hothers ⊢
    exact hright hothers

/-- **Every step of a writer keeps the views right.** -/
theorem ViewsRight.step {i : ι} (h : ViewsRight w)
    (hwf : w.state.WellFormed env.digest) (hobserved : Observed env w.state w'.state label)
    (htrace : w'.trace = label.toList.map (Prod.mk i) ++ w.trace)
    (hwriter : ∀ event, label = some event → event.ofWriter = true)
    (hcond : ∀ event, label = some event → UpToDate w.trace i event) : ViewsRight w' := by
  intro j view hview sig hothers
  rw [htrace] at hview
  have hstill : (∀ branch head, headAfter label branch head = head) →
      view ∈ viewOf j w.trace → (w'.state.headMap view.branch)[sig]? = view.map[sig]? := by
    intro hsame hbefore
    rw [headMap_of_still hwf hobserved (hsame _ _)]
    exact h j view hbefore sig hothers
  cases label with
  | none => exact hstill (fun _ _ => rfl) hview
  | some event =>
    cases event with
    | planned branch head map =>
      have hplanned : view ∈ (if i = j then some { branch, map, others := [] }
        else viewOf j w.trace) := hview
      split at hplanned
      · obtain rfl := some.inj hplanned
        have hmap := (hobserved.holds _ rfl).2
        rw [headMap_of_still hwf hobserved rfl]
        exact congrArg (fun m : HeadMap => m[sig]?) hmap.symm
      · exact hstill (fun _ _ => rfl) hplanned
    | passed candidate => exact hstill (fun _ _ => rfl) hview
    | landed branch parent record filed =>
      obtain ⟨before, hbefore, rfl⟩ := Option.mem_map.mp hview
      have hsame : (before.land branch (i = j) filed.produces).branch = before.branch := by
        unfold View.land
        split
        · split <;> rfl
        · rfl
      rw [hsame]
      refine View.land_right (h j before hbefore sig) ?_ hothers
      split
      · rename_i hbranch
        rw [hbranch]
        exact headMap_of_landed hwf hobserved (hcond _ rfl).1
      · rename_i hbranch
        refine headMap_of_still hwf hobserved ?_
        exact if_neg (Ne.symm hbranch)
    | _ => cases hwriter _ rfl

/-- Every landing so far was exact, and is known to the log. -/
def UpdatesExact (w : World ι Store Event) : Prop :=
  ∀ entry ∈ w.trace, entry.2.Exact w.state.log ∧
    ∀ branch parent record filed, entry.2 = .landed branch parent record filed →
      Logged w.state.log parent

theorem Event.Exact.le {log log' : OpLog} {event : Event} (h : event.Exact log)
    (hclosed : log.Closed) (hle : log.Le log')
    (hlogged : ∀ branch parent record filed, event = .landed branch parent record filed →
      Logged log parent) : event.Exact log' := by
  cases event with
  | landed branch parent record filed =>
    intro entry hentry
    rw [replayHead_of_le hclosed hle (hlogged _ _ _ _ rfl)]
    exact h entry hentry
  | _ => trivial

/-- **A landing from a view that is right is exact.** -/
theorem UpdatesExact.step {i : ι} (h : UpdatesExact w) (hviews : ViewsRight w)
    (hwf : w.state.WellFormed env.digest) (hobserved : Observed env w.state w'.state label)
    (htrace : w'.trace = label.toList.map (Prod.mk i) ++ w.trace)
    (hcond : ∀ event, label = some event → UpToDate w.trace i event) : UpdatesExact w' := by
  have hle := hobserved.grows
  intro entry hentry
  rw [htrace] at hentry
  rcases mem_append.mp hentry with hnew | hold
  · obtain ⟨event, hevent, rfl⟩ := mem_map.mp hnew
    have hlabel := mem_toList.mp hevent
    have hholds := hobserved.holds event hlabel
    have hmeets := hcond event hlabel
    have hlogged : ∀ branch parent record filed, event = .landed branch parent record filed →
        Logged w.state.log parent := by
      rintro branch parent record filed rfl
      rw [← hholds.1]
      exact hwf.logged branch
    refine ⟨Event.Exact.le ?_ hwf.closed hle hlogged, fun b p r f he => (hlogged b p r f he).le hle⟩
    cases event with
    | landed branch parent record filed =>
      intro replaced hreplaced
      obtain ⟨view, hview, rfl, hstage, hothers⟩ := hmeets.2 replaced hreplaced
      have hright := hviews i view hview replaced.1 hothers
      unfold Store.headMap at hright
      rw [hholds.1] at hright
      exact hright.trans hstage
    | _ => trivial
  · obtain ⟨hexact, hlogged⟩ := h entry hold
    exact ⟨hexact.le hwf.closed hle hlogged, fun b p r f he => (hlogged b p r f he).le hle⟩

/-! ## Every run -/

variable {store : Store} {calls : ι → Call}

theorem writers_sound (hwf : store.WellFormed env.digest) (hwriter : ∀ i, (calls i).isWriter = true) :
    (callers env store calls).Sound (spec env fun _ _ event => event.ofWriter = true) fun _ _ _ => True := by
  refine ⟨hwf, fun i => ⟨_, Grew.refl i _, ?_⟩⟩
  obtain ⟨branch, hbranch⟩ : ∃ branch, (calls i).branch = some branch := by
    have hcall := hwriter i
    cases hi : calls i with
    | retroBlock =>
      rw [hi] at hcall
      cases hcall
    | _ => exact ⟨_, rfl⟩
  exact (sat_writer (fun _ _ h => h) (hwriter i) hbranch).mono fun _ _ _ => trivial

/-- **Every landed replacement replaces what it says it replaces**, in every run of writers whose
landings are up to date. -/
theorem updates_exact (hwf : store.WellFormed env.digest) (hwriter : ∀ i, (calls i).isWriter = true)
    (schedule : List (ι × Bool)) (hcond : AllMeet UpToDate ((callers env store calls).exec schedule).world.trace) :
    ∀ entry ∈ ((callers env store calls).exec schedule).world.trace,
      entry.2.Exact ((callers env store calls).exec schedule).world.state.log := by
  have hstart : ViewsRight (callers env store calls).world ∧
      UpdatesExact (callers env store calls).world :=
    ⟨(fun _ _ hview => by cases hview), (fun _ hentry => by cases hentry)⟩
  have hkeeps : ∀ i (w w' : World ι Store Event) (label : Option Event),
      w.state.WellFormed env.digest → w'.state.WellFormed env.digest →
      (spec env fun _ _ event => event.ofWriter = true).guar i w w' →
      w'.trace = label.toList.map (Prod.mk i) ++ w.trace → AllMeet UpToDate w'.trace →
        ViewsRight w ∧ UpdatesExact w → ViewsRight w' ∧ UpdatesExact w' := by
    rintro i w w' _ hinv _ ⟨label, htrace, hobserved, hguard⟩ _ hcond' ⟨hviews, hexact⟩
    rw [htrace] at hcond'
    have hmeets : ∀ event, label = some event → UpToDate w.trace i event :=
      fun event hevent => hcond'.of_step hevent
    exact ⟨hviews.step hinv hobserved htrace hguard hmeets,
      hexact.step hviews hinv hobserved htrace hmeets⟩
  have hrun := (writers_sound hwf hwriter).keeps hkeeps hstart schedule
    (hcond.mono fun _ _ _ h => h.promised) hcond
  exact fun entry hentry => (hrun.2 entry hentry).1

end Views

/-! ## Two edits of one function -/

/-- Short ids for a type and its edits: one after another, and both from the first stage. -/
def editTable : List (CanonicalForm × OpId) :=
  [((Operation.new (.addType "f" "s1" none) []).canonicalForm, "g"),
    ((Operation.new (.modifyType "f" "s1" "s2" none) ["g"]).canonicalForm, "a"),
    ((Operation.new (.modifyType "f" "s2" "s3" none) ["a"]).canonicalForm, "b"),
    ((Operation.new (.modifyType "f" "s1" "s3" none) ["a"]).canonicalForm, "c")]

noncomputable def editEnv : Env where
  digest := .ofTable editTable (by decide) (by decide)
  typeChecks := fun _ => true
  locksAgree := fun _ => true
  semanticMerge := fun _ _ _ _ _ _ => none
  manifestOk := fun _ => true

/-- Edit the stage that the head map has. -/
def planEdit (toStage : StageId) (map : HeadMap) : Operation × StageTransition :=
  let fromStage := map["f"]?.getD ""
  (.new (.modifyType "f" fromStage toStage none) [], .replace "f" fromStage toStage)

def editCalls : Fin 3 → Call
  | 0 => .planAndApply "main" (fun _ => (.new (.addType "f" "s1" none) [], .create "f" "s1")) none
  | 1 => .planAndApply "main" (planEdit "s2") none
  | 2 => .planAndApply "main" (planEdit "s3") none

local instance neZero_three : NeZero 3 := ⟨by decide⟩

/-- One edit after another. -/
noncomputable def editedInTurn : Config (Fin 3) Store Event Bool (Except StoreError Outcome) :=
  (callers editEnv .empty editCalls).exec
    (replicate 9 (0, true) ++ replicate 9 (1, true) ++ replicate 9 (2, true))

theorem updates_exact_sequential : (∀ i, (editedInTurn.pool i).returned.isSome) ∧
      ∀ entry ∈ editedInTurn.world.trace, entry.2.Exact editedInTurn.world.state.log :=
  ⟨by decide, updates_exact (Store.wellFormed_empty _) (by decide) _ (by decide)⟩

/-- Both edits are planned on the first stage, and then both land. -/
noncomputable def editedApart : Config (Fin 3) Store Event Bool (Except StoreError Outcome) :=
  (callers editEnv .empty editCalls).exec
    (replicate 9 (0, true) ++ replicate 2 (2, true) ++ replicate 9 (1, true) ++
      replicate 7 (2, true))

/-- **The second edit lands on a head that no longer has the stage it replaces**, and the first edit
is gone. -/
theorem editedApart_not_exact : (∀ i, (editedApart.pool i).returned.isSome) ∧
      editedApart.world.state.headOp "main" = some "c" ∧
        (editedApart.world.state.log.get "c").map (fun record => (record.op.parents, record.produces)) =
            some (["a"], .replace "f" "s1" "s3") ∧ (editedApart.world.state.log.replay "a")["f"]? = some "s2" ∧
            ¬ ∀ entry ∈ editedApart.world.trace, entry.2.Exact editedApart.world.state.log := by
  refine ⟨by decide, by decide, by decide, by decide, by decide⟩

end LexLang
