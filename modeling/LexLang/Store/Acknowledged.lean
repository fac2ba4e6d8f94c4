/-
# LexLang.Store.Acknowledged — an acknowledged operation stays in its branch's history

Callers that land operations, merge, push, journal a merge and create branches, interleaved in any
way. `standing` lists the landings that no rollback took back, and `Kept` says how they lie in the
history: each is below its branch's head, and each was landed on top of the ones before it.

A landing keeps this because it compares before it swaps. The other head moves do not compare: a
rollback, a push and the journal line of a merge write what they have read before. `Undisturbed` is
what they have to find.
-/
import LexLang.Store.Calls

namespace LexLang

open LexLang.Vcs LexLang.Concurrent
open List Option

/-! ## Landings that stand -/

/-- A landing of one caller. -/
structure Landing (ι : Type) where
  caller : ι
  branch : BranchName
  parent : Option OpId
  opId : OpId

section Standing

variable {ι : Type} [DecidableEq ι]

/-- **The landings that stand**, newest first: a rollback takes back its caller's latest one. -/
def standing : List (ι × Event) → List (Landing ι)
  | [] => []
  | (i, .landed branch parent record _) :: older =>
    { caller := i, branch, parent, opId := record.opId } :: standing older
  | (i, .rolledBack _ _ _) :: older => (standing older).eraseP fun l => l.caller = i
  | _ :: older => standing older

/-- The latest landing of a caller that stands. -/
def latest (i : ι) (trace : List (ι × Event)) : Option (Landing ι) :=
  (standing trace).find? fun l => l.caller = i

/-- **What a head move has to find**: a rollback the operation that its own caller landed, on the head
it goes back to; a push and a journal line the head they had read; the creation of a branch none. -/
def Undisturbed (older : List (ι × Event)) (i : ι) : Event → Prop
  | .rolledBack branch found target =>
    ∃ l ∈ latest i older, l.branch = branch ∧ found = some l.opId ∧ l.parent = some target
  | .pushed _ found expected _ known => found = expected ∧ known = true
  | .journaled _ found written => found = written
  | .created _ found _ => found = none
  | .planned _ _ _ | .passed _ | .merging _ _ | .landed _ _ _ _ | .judged _ _ _ | .rollbackLost _
  | .reported _ _ _ _ _ => True

instance (older : List (ι × Event)) (i : ι) : (event : Event) → Decidable (Undisturbed older i event)
  | .planned .. | .passed .. | .merging .. | .landed .. | .judged .. | .rolledBack .. | .rollbackLost ..
  | .pushed .. | .journaled .. | .created .. | .reported .. => by
    dsimp only [Undisturbed]
    infer_instance

theorem Undisturbed.promised {older : List (ι × Event)} {i : ι} {event : Event}
    (h : Undisturbed older i event) : event.Promised := by
  cases event with
  | pushed branch found expected target known => exact h.2
  | _ => trivial

theorem mem_standing_cons {l : Landing ι} {older : List (ι × Event)} {j : ι} {event : Event}
    (hl : l ∈ standing older) (h : event.takesBack = false ∨ l.caller ≠ j) : l ∈ standing ((j, event) :: older) := by
  cases event with
  | landed branch parent record filed => exact mem_cons_of_mem _ hl
  | rolledBack branch found target =>
    have hother : l.caller ≠ j := h.resolve_left Bool.true_eq_false.mp
    exact (mem_eraseP_of_neg (by simpa using hother)).mpr hl
  | _ => exact hl

/-- **What a caller landed and did not take back stands.** -/
theorem mem_standing_of_own {i : ι} {branch : BranchName} {parent : Option OpId}
    {record filed : OperationRecord} {newer rest : List Event} {trace : List (ι × Event)}
    (h : own i trace = newer ++ .landed branch parent record filed :: rest)
    (hnewer : ∀ event ∈ newer, event.takesBack = false) :
    { caller := i, branch, parent, opId := record.opId } ∈ standing trace := by
  induction trace generalizing newer with
  | nil => simp [own] at h
  | cons entry older ih =>
    obtain ⟨j, event⟩ := entry
    rw [own_cons] at h
    split at h
    · rename_i hj
      cases newer with
      | nil =>
        obtain ⟨rfl, _⟩ := List.cons.inj h
        rw [← hj]
        exact mem_cons_self
      | cons first newer =>
        obtain ⟨rfl, hrest⟩ := List.cons.inj h
        refine mem_standing_cons (ih hrest ?_) (.inl (hnewer _ mem_cons_self))
        exact fun e he => hnewer e (mem_cons_of_mem _ he)
    · rename_i hj
      exact mem_standing_cons (ih h hnewer) (.inr (Ne.symm hj))

theorem latest_cons_of_ne {i j : ι} (h : j ≠ i) (event : Event) (older : List (ι × Event)) :
    latest i ((j, event) :: older) = latest i older := by
  unfold latest
  cases event with
  | landed branch parent record filed =>
    exact find?_cons_of_neg (by simpa using h)
  | rolledBack branch found target =>
    show ((standing older).eraseP _).find? _ = _
    induction standing older with
    | nil => rfl
    | cons l landings ih =>
      by_cases hl : l.caller = j
      · rw [eraseP_cons_of_pos (by simpa using hl), find?_cons_of_neg]
        simpa [hl] using h
      · rw [eraseP_cons_of_neg (by simpa using hl), find?_cons, find?_cons, ih]
  | _ => rfl

/-- **A caller's latest landing**, when it was not seen landing or rolling back since. -/
theorem latest_of_own {i : ι} {branch : BranchName} {parent : Option OpId}
    {record filed : OperationRecord} {newer rest : List Event} {trace : List (ι × Event)}
    (h : own i trace = newer ++ .landed branch parent record filed :: rest)
    (hnewer : ∀ event ∈ newer, event.moves = none) :
    latest i trace = some { caller := i, branch, parent, opId := record.opId } := by
  induction trace generalizing newer with
  | nil => simp [own] at h
  | cons entry older ih =>
    obtain ⟨j, event⟩ := entry
    rw [own_cons] at h
    split at h
    · rename_i hj
      cases newer with
      | nil =>
        obtain ⟨rfl, _⟩ := List.cons.inj h
        rw [hj]
        exact find?_cons_of_pos (by simp)
      | cons first newer =>
        obtain ⟨rfl, hrest⟩ := List.cons.inj h
        have hlatest := ih hrest fun e he => hnewer e (mem_cons_of_mem _ he)
        have hstill := hnewer _ mem_cons_self
        cases event with
        | landed | rolledBack => cases hstill
        | _ => exact hlatest
    · rename_i hj
      rw [latest_cons_of_ne hj]
      exact ih h hnewer

end Standing

/-! ## How they lie in the history -/

/-- **The landings that stand are kept**: below their branch's head, each on top of the older ones. -/
structure Kept {ι : Type} (log : OpLog) (heads : BranchName → Option OpId)
    (landings : List (Landing ι)) : Prop where
  reached : ∀ l ∈ landings, ∃ head, heads l.branch = some head ∧ log.Reach head l.opId
  stacked : landings.Pairwise fun newer older => newer.branch = older.branch →
    ∃ parent, newer.parent = some parent ∧ log.Reach parent older.opId
  edges : ∀ l ∈ landings, ∀ parent, l.parent = some parent →
    Graph.Edge log.parentsOf l.opId parent

section Kept

variable {ι : Type} {log log' : OpLog} {heads heads' : BranchName → Option OpId} {landings : List (Landing ι)}

/-- A head that is where it was, or further up, with nothing landed or taken back. -/
theorem Kept.advance (h : Kept log heads landings) (hle : log.Le log')
    (hheads : ∀ branch head, heads branch = some head →
      ∃ head', heads' branch = some head' ∧ log'.Reach head' head) : Kept log' heads' landings where
  reached := by
    intro l hl
    obtain ⟨head, hhead, hreach⟩ := h.reached l hl
    obtain ⟨head', hhead', hup⟩ := hheads l.branch head hhead
    exact ⟨head', hhead', hup.trans (hle.reach hreach)⟩
  stacked := h.stacked.imp fun hstacked hsame => by
    obtain ⟨parent, hparent, hreach⟩ := hstacked hsame
    exact ⟨parent, hparent, hle.reach hreach⟩
  edges := fun l hl parent hparent => hle.edge (h.edges l hl parent hparent)

/-- **A landing** on the head that the swap found. -/
theorem Kept.land (h : Kept log heads landings) {l : Landing ι} (hfound : heads l.branch = l.parent)
    (hedge : ∀ parent, l.parent = some parent → Graph.Edge log.parentsOf l.opId parent)
    (hheads : ∀ branch, heads' branch = if l.branch = branch then some l.opId else heads branch) :
    Kept log heads' (l :: landings) := by
  have hadvance : Kept log heads' landings := by
    refine h.advance (OpLog.Le.refl _) fun branch head hhead => ?_
    rw [hheads]
    split
    · rename_i hsame
      rw [← hsame, hfound] at hhead
      exact ⟨_, rfl, .single (hedge head hhead)⟩
    · exact ⟨head, hhead, .refl⟩
  refine ⟨?_, pairwise_cons.mpr ⟨?_, hadvance.stacked⟩, ?_⟩
  · intro m hm
    rcases mem_cons.mp hm with rfl | hm
    · exact ⟨m.opId, by rw [hheads, if_pos rfl], .refl⟩
    · exact hadvance.reached m hm
  · intro older holder hsame
    obtain ⟨head, hhead, hreach⟩ := h.reached older holder
    rw [← hsame, hfound] at hhead
    exact ⟨head, hhead, hreach⟩
  · intro m hm
    rcases mem_cons.mp hm with rfl | hm
    · exact hedge
    · exact hadvance.edges m hm

/-- **A rollback** of the landing `l`, when `l` is the head still. -/
theorem Kept.takeBack (h : Kept log heads landings) (hac : log.Acyclic) {p : Landing ι → Bool}
    {l : Landing ι} (hl : landings.find? p = some l) {target : OpId}
    (hfound : heads l.branch = some l.opId) (hparent : l.parent = some target)
    (hheads : ∀ branch, heads' branch = if l.branch = branch then some target else heads branch) :
    Kept log heads' (landings.eraseP p) := by
  obtain ⟨hpl, newer, older, rfl, hnewer⟩ := find?_eq_some_iff_append.mp hl
  have herase : (newer ++ l :: older).eraseP p = newer ++ older := by
    rw [eraseP_append_right _ fun m hm => by simpa using hnewer m hm,
      eraseP_cons_of_pos hpl]
  rw [herase]
  obtain ⟨hnewerStacked, hlStacked, hacross⟩ := pairwise_append.mp h.stacked
  obtain ⟨hbelow, holderStacked⟩ := pairwise_cons.mp hlStacked
  have hsub : ∀ m ∈ newer ++ older, m ∈ newer ++ l :: older := by
    intro m hm
    rcases mem_append.mp hm with hm | hm
    · exact mem_append_left _ hm
    · exact mem_append_right _ (mem_cons_of_mem _ hm)
  refine ⟨?_, pairwise_append.mpr ⟨hnewerStacked, holderStacked, fun m hm k hk =>
    hacross m hm k (mem_cons_of_mem _ hk)⟩, fun m hm => h.edges m (hsub m hm)⟩
  intro m hm
  rw [hheads]
  by_cases hsame : l.branch = m.branch
  · rw [if_pos hsame]
    refine ⟨target, rfl, ?_⟩
    rcases mem_append.mp hm with hm | hm
    · -- a newer landing is both above `l` and, as the head is `l`, below it
      exfalso
      obtain ⟨parent, hmparent, hup⟩ := hacross m hm l mem_cons_self hsame.symm
      obtain ⟨head, hhead, hdown⟩ := h.reached m (mem_append_left _ hm)
      rw [← hsame, hfound] at hhead
      rw [← some.inj hhead] at hdown
      have hedge := h.edges m (mem_append_left _ hm) parent hmparent
      exact hac m.opId (.head' hedge (hup.trans hdown))
    · obtain ⟨parent, hparent', hreach⟩ := hbelow m hm hsame
      rw [hparent] at hparent'
      rw [some.inj hparent']
      exact hreach
  · rw [if_neg hsame]
    exact h.reached m (hsub m hm)

end Kept

/-! ## Every step, and every run -/

section Runs

variable {ι : Type} [DecidableEq ι]

/-- What is kept of the landings, in a world. -/
def LandingsKept (w : World ι Store Event) : Prop :=
  Kept w.state.log w.state.headOp (standing w.trace)

variable {env : Env}

/-- **Every undisturbed step keeps the landings.** -/
theorem LandingsKept.step {w w' : World ι Store Event} {i : ι} {label : Option Event}
    (hwf : w.state.WellFormed env.digest) (hobserved : Observed env w.state w'.state label)
    (htrace : w'.trace = label.toList.map (Prod.mk i) ++ w.trace)
    (hcond : ∀ event, label = some event → Undisturbed w.trace i event) (h : LandingsKept w) : LandingsKept w' := by
  have hgrown : Kept w'.state.log w.state.headOp (standing w.trace) :=
    h.advance hobserved.grows fun branch head hhead => ⟨head, hhead, .refl⟩
  unfold LandingsKept
  rw [htrace]
  have hheads := hobserved.heads
  cases label with
  | none =>
    rw [funext hheads]
    exact hgrown
  | some event =>
    have hholds := hobserved.holds event rfl
    have hmeets := hcond event rfl
    cases event with
    | landed branch parent record filed =>
      refine hgrown.land hholds.1 ?_ hheads
      intro p hparent
      exact hobserved.grows.edge (landed_edge hwf hholds hparent)
    | rolledBack branch found target =>
      obtain ⟨l, hl, rfl, hfound, hparent⟩ := hmeets
      refine hgrown.takeBack hobserved.wellFormed.acyclic hl ?_ hparent hheads
      rw [← hfound]
      exact hholds.1
    | pushed branch found expected target known =>
      obtain ⟨hfound, _, hreach⟩ := hholds
      refine hgrown.advance (OpLog.Le.refl _) fun other head hhead => ?_
      rw [hheads]
      show ∃ head', (if branch = other then some target else _) = some head' ∧ _
      split
      · rename_i hsame
        refine ⟨target, rfl, hobserved.grows.reach (hreach head ?_)⟩
        rw [← hmeets.1, ← hfound, hsame]
        exact hhead
      · exact ⟨head, hhead, .refl⟩
    | journaled branch found written =>
      have hsame : ∀ other, w'.state.headOp other = w.state.headOp other := by
        intro other
        rw [hheads]
        show (if branch = other then written else _) = _
        split
        · rename_i hbranch
          have hwritten : found = written := hmeets
          rw [← hwritten, ← hbranch]
          exact hholds.symm
        · rfl
      rw [funext hsame]
      exact hgrown
    | created branch found head =>
      have hnone : w.state.headOp branch = none := hholds.trans hmeets
      refine hgrown.advance (OpLog.Le.refl _) fun other old hold => ?_
      rw [hheads]
      show ∃ head', (if branch = other then head else _) = some head' ∧ _
      split
      · rename_i hsame
        rw [← hsame, hnone] at hold
        cases hold
      · exact ⟨old, hold, .refl⟩
    | planned _ _ _ | passed _ | merging _ _ | judged _ _ _ | rollbackLost _
    | reported _ _ _ _ _ =>
      rw [funext hheads]
      exact hgrown

variable {store : Store} {calls : ι → Call}

theorem landingsKept_start : LandingsKept (callers env store calls).world where
  reached := fun _ hl => by cases hl
  stacked := List.Pairwise.nil
  edges := fun _ hl => by cases hl

/-- **Every undisturbed run keeps the landings.** -/
theorem landingsKept_exec (hwf : store.WellFormed env.digest) (schedule : List (ι × Bool))
    (hcond : AllMeet Undisturbed ((callers env store calls).exec schedule).world.trace) :
    LandingsKept ((callers env store calls).exec schedule).world := by
  refine (callers_sound hwf).keeps ?_ landingsKept_start schedule (hcond.mono fun _ _ _ h => h.promised) hcond
  rintro i w w' _ hinv _ ⟨label, htrace, hobserved, _⟩ _ hcond' hkept
  rw [htrace] at hcond'
  exact hkept.step hinv hobserved htrace fun event hevent => hcond'.of_step hevent

end Runs

/-! ## A rejected merge -/

/-- Short ids for an operation on the main branch, one on a topic branch on top of it, the merge of the
two, and an operation on top of the merge. -/
def rejectedTable : List (CanonicalForm × OpId) :=
  [((Operation.new (.addType "f" "s1" none) []).canonicalForm, "g"),
    ((Operation.new (.addType "h" "s2" none) ["g"]).canonicalForm, "s"),
    ((Operation.new (.merge 1) ["g", "s"]).canonicalForm, "m"),
    ((Operation.new (.addType "k" "s3" none) ["m"]).canonicalForm, "k")]

noncomputable def rejectedEnv (typeChecks : HeadMap → Bool) : Env where
  digest := .ofTable rejectedTable (by decide) (by decide)
  typeChecks := typeChecks
  locksAgree := fun _ => true
  semanticMerge := fun _ _ _ _ _ _ => none
  manifestOk := fun _ => true

/-- Two branches, their merge, and one more operation. -/
def rejectedCalls : Fin 5 → Call
  | 0 => .applyOperation "main" (.new (.addType "f" "s1" none) []) (.create "f" "s1")
  | 1 => .createBranch "topic" "main"
  | 2 => .applyOperation "topic" (.new (.addType "h" "s2" none) []) (.create "h" "s2")
  | 3 => .applyMergeOpGated "main" (.new (.merge 1) ["g", "s"])
      (.merge ((∅ : Std.ExtTreeMap SigId (Option StageId)).insert "h" (some "s2")))
  | 4 => .applyOperation "main" (.new (.addType "k" "s3" none) []) (.create "k" "s3")

def rejectedStore : Store := .ofStages [("f", "s1"), ("h", "s2"), ("k", "s3")]

/-- The two branches. -/
def forkFirst : List (Fin 5 × Bool) :=
  replicate 6 (0, true) ++ replicate 6 (1, true) ++ replicate 6 (2, true)

/-- The merge has landed and is about to be judged, when one more operation lands on top of it. -/
noncomputable def rejectedLanded : Config (Fin 5) Store Event Bool (Except StoreError Outcome) :=
  (callers (rejectedEnv fun map => !map.contains "h") rejectedStore rejectedCalls).exec
    (forkFirst ++ replicate 8 (3, true) ++ replicate 6 (4, true))

section History

variable {ι : Type} [DecidableEq ι] {env : Env} {store : Store} {calls : ι → Call}

end History

end LexLang
