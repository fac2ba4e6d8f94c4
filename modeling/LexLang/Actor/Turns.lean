/-
# LexLang.Actor.Turns — turns are serialized, and none is lost

The invariant of the protocol. The tickets of an actor from `serving` on are exactly those that some
thread holds, each held once; the one that is served is the only one whose handler can run, and it
runs on the state that the handled messages before it have left (`stateAfter`).
-/
import LexLang.Actor.Protocol
import Mathlib.Data.List.TakeDrop
import Mathlib.Order.Nat

namespace LexLang.Actor

open Function List Option

variable {D : Type}

/-! ## What the log says -/

/-- The state after a message: a handler that fails leaves it alone, and so does a message without one. -/
def Entry.apply (state : Value D) : Entry D → Value D
  | .handled _ _ _ result => result.newState.getD state
  | .skipped _ => state

/-- **The left fold of the handlers over the initial state.** -/
def stateAfter (initial : Value D) (log : List (Entry D)) : Value D := log.foldl Entry.apply initial

@[simp] theorem stateAfter_nil (initial : Value D) : stateAfter initial [] = initial := rfl

@[simp] theorem stateAfter_append (initial : Value D) (log : List (Entry D)) (entry : Entry D) :
    stateAfter initial (log ++ [entry]) = entry.apply (stateAfter initial log) := by
  simp [stateAfter]

section Turns

variable (Behaves : Value D → Value D → Value D → Invoked D → Prop)

/-- An entry is the message with this ticket; if it was handled, then by the actor's handler, in the state
that the messages before it have left. -/
def Entry.Right (cell : ActorCell D) (ticket : Nat) (before : List (Entry D)) : Entry D → Prop
  | .handled t msg state result =>
    t = ticket ∧ cell.sent[ticket]? = some msg ∧ t ∈ cell.begun ∧ state = stateAfter cell.initial before ∧
      ∃ closure, cell.handler = .lex closure ∧ Behaves closure state msg result
  | .skipped t => t = ticket ∧ t ∉ cell.begun

/-- What holds of an actor by itself. -/
structure ActorCell.Kept (cell : ActorCell D) : Prop where
  issued : cell.nextTicket = cell.sent.length
  served : cell.serving = cell.log.length
  le : cell.serving ≤ cell.nextTicket
  state : cell.state = stateAfter cell.initial cell.log
  entries : ∀ (i : Nat) (entry : Entry D), cell.log[i]? = some entry → entry.Right Behaves cell i (cell.log.take i)
  begunOnce : cell.begun.Pairwise (· < ·)
  begun : ∀ t ∈ cell.begun, t ≤ cell.serving ∧ t < cell.nextTicket

variable {Behaves}

/-- The thread has not given its ticket back. -/
def Task.Holding (task : Task D) : Prop := ∀ reply, task.phase ≠ .replying reply

def Task.Idle (task : Task D) : Prop := ∀ state, task.phase ≠ .handling state

/-- What a thread that holds a ticket can rely on. -/
structure Task.Kept (cell : ActorCell D) (task : Task D) : Prop where
  le : cell.serving ≤ task.ticket
  sent : cell.sent[task.ticket]? = some task.msg
  handler : cell.handler = .lex task.closure
  handling : ∀ state, task.phase = .handling state →
    task.ticket = cell.serving ∧ state = cell.state ∧ task.ticket ∈ cell.begun
  idle : task.Idle → task.ticket ∉ cell.begun

/-- The positions in the stacks of the threads, and what stands there. -/
abbrev Posts (D : Type) := Nat × Nat → Option (Task D)

def Holds (posts : Posts D) (p : Nat × Nat) (c t : Nat) : Prop :=
  ∃ task, posts p = some task ∧ task.Holding ∧ task.cell = c ∧ task.ticket = t

variable (Behaves)

/-- **The invariant.** -/
structure Inv (cells : Nat → Option (ActorCell D)) (posts : Posts D) : Prop where
  kept : ∀ c (cell : ActorCell D), cells c = some cell → cell.Kept Behaves
  tasks : ∀ p task, posts p = some task → task.Holding →
    ∃ cell : ActorCell D, cells task.cell = some cell ∧ task.Kept cell
  apart : ∀ p q c t, Holds posts p c t → Holds posts q c t → p = q
  held : ∀ c (cell : ActorCell D), cells c = some cell → ∀ t, cell.serving ≤ t → t < cell.nextTicket →
    ∃ p, Holds posts p c t

variable {Behaves} {cells : Nat → Option (ActorCell D)} {posts : Posts D} {p q : Nat × Nat}
  {task task' : Task D} {c t : Nat} {cell : ActorCell D}

/-! ## Posts -/

theorem holds_update_of_ne {o : Option (Task D)} (h : p ≠ q) :
    Holds (Function.update posts q o) p c t ↔ Holds posts p c t := by
  rw [Holds, Holds, update_of_ne h]

theorem not_holds_update_none : ¬ Holds (Function.update posts p none) p c t := by
  rintro ⟨task, htask, _⟩
  rw [update_self] at htask
  cases htask

theorem holds_update_self :
    Holds (Function.update posts p (some task)) p c t ↔ task.Holding ∧ task.cell = c ∧ task.ticket = t := by
  rw [Holds, update_self]
  constructor
  · rintro ⟨task', heq, h⟩
    cases heq
    exact h
  · exact fun h => ⟨task, rfl, h⟩

/-! ## Cells -/

theorem ActorCell.Kept.new (state : Value D) (handler : ActorHandler D) :
    (ActorCell.new state handler).Kept Behaves where
  issued := rfl
  served := rfl
  le := le_rfl
  state := rfl
  entries := fun i entry h => by cases h
  begunOnce := List.Pairwise.nil
  begun := fun t h => absurd h not_mem_nil

theorem ActorCell.Kept.issue (h : cell.Kept Behaves) (msg : Value D) : (cell.issue msg).Kept Behaves where
  issued := by simp [ActorCell.issue, h.issued]
  served := h.served
  le := h.le.trans (Nat.le_succ _)
  state := h.state
  entries := by
    intro i entry hi
    have hentry := h.entries i entry hi
    cases entry with
    | skipped t => exact hentry
    | handled t msg' state result =>
      obtain ⟨ht, hsent, hrest⟩ := hentry
      refine ⟨ht, ?_, hrest⟩
      show (cell.sent ++ [msg])[i]? = _
      rw [getElem?_append_left (List.getElem?_eq_some_iff.mp hsent).1]
      exact hsent
  begunOnce := h.begunOnce
  begun := fun t ht => ⟨(h.begun t ht).1, (h.begun t ht).2.trans (Nat.lt_succ_self _)⟩

theorem ActorCell.Kept.call (h : cell.Kept Behaves) (hlt : cell.serving < cell.nextTicket)
    (hnew : cell.serving ∉ cell.begun) : cell.call.Kept Behaves where
  issued := h.issued
  served := h.served
  le := h.le
  state := h.state
  entries := by
    intro i entry hi
    have hentry := h.entries i entry hi
    have hlt' : i < cell.log.length := (List.getElem?_eq_some_iff.mp hi).1
    cases entry with
    | skipped t =>
      refine ⟨hentry.1, ?_⟩
      intro hmem
      rcases mem_append.mp hmem with hmem | hmem
      · exact hentry.2 hmem
      · have := h.served
        have : t = cell.serving := mem_singleton.mp hmem
        have := hentry.1
        omega
    | handled t msg state result =>
      obtain ⟨ht, hsent, hbegun, hrest⟩ := hentry
      exact ⟨ht, hsent, mem_append_left _ hbegun, hrest⟩
  begunOnce := by
    refine pairwise_append.mpr ⟨h.begunOnce, pairwise_singleton _ _, ?_⟩
    intro t ht t' ht'
    rw [mem_singleton.mp ht']
    have := (h.begun t ht).1
    have : t ≠ cell.serving := fun heq => hnew (heq ▸ ht)
    omega
  begun := by
    intro t ht
    rcases mem_append.mp ht with ht | ht
    · exact h.begun t ht
    · rw [mem_singleton.mp ht]
      exact ⟨le_rfl, hlt⟩

variable {newState : Option (Value D)}

theorem ActorCell.Kept.advance (h : cell.Kept Behaves) (hlt : cell.serving < cell.nextTicket)
    {entry : Entry D} (hentry : entry.Right Behaves cell cell.serving cell.log)
    (hstate : newState.getD cell.state = entry.apply cell.state) : (cell.advance newState entry).Kept Behaves where
  issued := h.issued
  served := by simp [ActorCell.advance, h.served]
  le := hlt
  state := by
    show newState.getD cell.state = stateAfter cell.initial (cell.log ++ [entry])
    rw [stateAfter_append, ← h.state, hstate]
  entries := by
    intro i entry' hi
    have hi : (cell.log ++ [entry])[i]? = some entry' := hi
    show entry'.Right Behaves cell i ((cell.log ++ [entry]).take i)
    rcases Nat.lt_or_ge i cell.log.length with hlt | hge
    · rw [getElem?_append_left hlt] at hi
      rw [take_append_of_le_length (Nat.le_of_lt hlt)]
      exact h.entries i entry' hi
    · have hlast := (List.getElem?_eq_some_iff.mp hi).1
      rw [length_append, length_singleton] at hlast
      have : i = cell.log.length := by omega
      subst this
      rw [getElem?_concat_length] at hi
      cases hi
      rw [take_left, ← h.served]
      exact hentry
  begunOnce := h.begunOnce
  begun := fun t ht => ⟨(h.begun t ht).1.trans (Nat.le_succ _), (h.begun t ht).2⟩

/-! ## Steps of the invariant -/

theorem Inv.initial : Inv Behaves (State.initial D).cells fun _ => none where
  kept := fun c cell h => by cases h
  tasks := fun p task h => by cases h
  apart := by
    rintro p q c t ⟨task, h, _⟩
    cases h
  held := fun c cell h => by cases h

variable (h : Inv Behaves cells posts)
include h

theorem Inv.new (hc : cells c = none) (state : Value D)
    (handler : ActorHandler D) : Inv Behaves (Function.update cells c (some (.new state handler))) posts where
  kept := by
    intro c' cell hcell
    by_cases hne : c' = c
    · subst hne
      rw [update_self] at hcell
      cases hcell
      exact .new state handler
    · rw [update_of_ne hne] at hcell
      exact h.kept c' cell hcell
  tasks := by
    intro p task hp hholding
    obtain ⟨cell, hcell, hkept⟩ := h.tasks p task hp hholding
    refine ⟨cell, ?_, hkept⟩
    rw [update_of_ne]
    · exact hcell
    · intro heq
      rw [heq, hc] at hcell
      cases hcell
  apart := h.apart
  held := by
    intro c' cell hcell t hle hlt
    by_cases hne : c' = c
    · subst hne
      rw [update_self] at hcell
      cases hcell
      exact absurd hlt (Nat.not_lt_zero t)
    · rw [update_of_ne hne] at hcell
      exact h.held c' cell hcell t hle hlt

theorem Inv.issue (task : Task D) (hc : cells task.cell = some cell)
    (hhandler : cell.handler = .lex task.closure) (hticket : task.ticket = cell.nextTicket)
    (hholding : task.Holding) (hidle : task.Idle) (hp : posts p = none) :
    Inv Behaves (Function.update cells task.cell (some (cell.issue task.msg)))
      (Function.update posts p (some task)) where
  kept := by
    intro c cell' hcell
    by_cases hne : c = task.cell
    · subst hne
      rw [update_self] at hcell
      cases hcell
      exact (h.kept _ cell hc).issue task.msg
    · rw [update_of_ne hne] at hcell
      exact h.kept c cell' hcell
  tasks := by
    intro q task' hq hholding'
    by_cases hne : q = p
    · subst hne
      rw [update_self] at hq
      cases hq
      have hkept := h.kept _ cell hc
      refine ⟨_, update_self _ _ _, ?_⟩
      constructor
      · rw [hticket]
        exact hkept.le
      · show (cell.sent ++ [task.msg])[task.ticket]? = _
        rw [hticket, hkept.issued]
        exact getElem?_concat_length
      · exact hhandler
      · exact fun state hstate => absurd hstate (hidle state)
      · intro _ hmem
        have := (hkept.begun _ hmem).2
        omega
    · rw [update_of_ne hne] at hq
      obtain ⟨cell', hcell', hkept⟩ := h.tasks q task' hq hholding'
      by_cases hsame : task'.cell = task.cell
      · rw [hsame, hc] at hcell'
        cases hcell'
        refine ⟨_, by rw [hsame]; exact update_self _ _ _, ?_⟩
        refine ⟨hkept.le, ?_, hkept.handler, hkept.handling, hkept.idle⟩
        show (cell.sent ++ [task.msg])[task'.ticket]? = _
        rw [getElem?_append_left (List.getElem?_eq_some_iff.mp hkept.sent).1]
        exact hkept.sent
      · exact ⟨cell', by rw [update_of_ne hsame]; exact hcell', hkept⟩
  apart := by
    -- who holds the new ticket is `p`
    have hnew : ∀ q, q ≠ p → ¬ Holds posts q task.cell task.ticket := by
      rintro q _ ⟨task', hq, hholding', hcell', hticket'⟩
      obtain ⟨cell', hcell, hkept⟩ := h.tasks q task' hq hholding'
      rw [hcell', hc] at hcell
      cases hcell
      have := (List.getElem?_eq_some_iff.mp hkept.sent).1
      have := (h.kept _ cell hc).issued
      omega
    intro q q' c t hq hq'
    by_cases hqp : q = p
    · subst hqp
      obtain ⟨_, rfl, rfl⟩ := holds_update_self.mp hq
      by_contra hne
      exact hnew q' (Ne.symm hne) ((holds_update_of_ne (Ne.symm hne)).mp hq')
    · rw [holds_update_of_ne hqp] at hq
      by_cases hqp' : q' = p
      · subst hqp'
        obtain ⟨_, rfl, rfl⟩ := holds_update_self.mp hq'
        exact absurd hq (hnew q hqp)
      · rw [holds_update_of_ne hqp'] at hq'
        exact h.apart q q' c t hq hq'
  held := by
    have hold : ∀ q c t, Holds posts q c t → ∃ q', Holds (Function.update posts p (some task)) q' c t := by
      intro q c t hq
      refine ⟨q, (holds_update_of_ne ?_).mpr hq⟩
      rintro rfl
      obtain ⟨task', htask', _⟩ := hq
      rw [hp] at htask'
      cases htask'
    intro c cell' hcell t hle hlt
    by_cases hne : c = task.cell
    · subst hne
      rw [update_self] at hcell
      cases hcell
      have hlt : t < cell.nextTicket + 1 := hlt
      rcases Nat.lt_or_ge t cell.nextTicket with hlt' | hge
      · obtain ⟨q, hq⟩ := h.held _ cell hc t hle hlt'
        exact hold q _ t hq
      · exact ⟨p, holds_update_self.mpr ⟨hholding, rfl, by omega⟩⟩
    · rw [update_of_ne hne] at hcell
      obtain ⟨q, hq⟩ := h.held c cell' hcell t hle hlt
      exact hold q c t hq

variable (hp : posts p = some task)
include hp

/-- A ticket changes hands, or its holder goes on, with the handler not running. -/
theorem Inv.move (hholding : task.Holding)
    (hidle : task.Idle) (hq : posts q = none ∨ q = p) (hcell : task'.cell = task.cell)
    (hticket : task'.ticket = task.ticket) (hclosure : task'.closure = task.closure)
    (hmsg : task'.msg = task.msg) (hholding' : task'.Holding) (hidle' : task'.Idle) :
    Inv Behaves cells (Function.update (Function.update posts p none) q (some task')) := by
  have hself : Holds posts p task.cell task.ticket := ⟨task, hp, hholding, rfl, rfl⟩
  -- the other posts are as they were
  have hother : ∀ r, r ≠ q → ∀ c t,
      Holds (Function.update (Function.update posts p none) q (some task')) r c t →
        Holds posts r c t ∧ r ≠ p := by
    intro r hr c t hholds
    rw [holds_update_of_ne hr] at hholds
    by_cases hrp : r = p
    · subst hrp
      exact absurd hholds not_holds_update_none
    · exact ⟨(holds_update_of_ne hrp).mp hholds, hrp⟩
  refine ⟨h.kept, ?_, ?_, ?_⟩
  · intro r task'' hr hholding''
    by_cases hrq : r = q
    · subst hrq
      rw [update_self] at hr
      cases hr
      obtain ⟨cell, hc, hkept⟩ := h.tasks p task hp hholding
      refine ⟨cell, hcell ▸ hc, ?_⟩
      exact ⟨hticket ▸ hkept.le, hticket ▸ hmsg ▸ hkept.sent, hclosure ▸ hkept.handler,
        fun state hstate => absurd hstate (hidle' state), fun _ => hticket ▸ hkept.idle hidle⟩
    · rw [update_of_ne hrq] at hr
      by_cases hrp : r = p
      · subst hrp
        rw [update_self] at hr
        cases hr
      · rw [update_of_ne hrp] at hr
        exact h.tasks r task'' hr hholding''
  · intro r r' c t hr hr'
    by_cases hrq : r = q
    · subst hrq
      obtain ⟨_, rfl, rfl⟩ := holds_update_self.mp hr
      by_contra hne
      obtain ⟨hold, hne'⟩ := hother r' (Ne.symm hne) _ _ hr'
      rw [hcell, hticket] at hold
      exact hne' (h.apart r' p _ _ hold hself)
    · obtain ⟨hold, hrp⟩ := hother r hrq c t hr
      by_cases hrq' : r' = q
      · subst hrq'
        obtain ⟨_, rfl, rfl⟩ := holds_update_self.mp hr'
        rw [hcell, hticket] at hold
        exact absurd (h.apart r p _ _ hold hself) hrp
      · exact h.apart r r' c t hold (hother r' hrq' c t hr').1
  · intro c cell hc t hle hlt
    obtain ⟨r, hr⟩ := h.held c cell hc t hle hlt
    by_cases hrp : r = p
    · subst hrp
      obtain ⟨task'', htask'', _, rfl, rfl⟩ := hr
      rw [hp] at htask''
      cases htask''
      exact ⟨q, holds_update_self.mpr ⟨hholding', hcell, hticket⟩⟩
    · have hrq : r ≠ q := by
        rintro rfl
        rcases hq with hnone | rfl
        · obtain ⟨task'', htask'', _⟩ := hr
          rw [hnone] at htask''
          cases htask''
        · exact hrp rfl
      exact ⟨r, (holds_update_of_ne hrq).mpr ((holds_update_of_ne hrp).mpr hr)⟩

omit h in
theorem holds_update_same (hcell : task'.cell = task.cell)
    (hticket : task'.ticket = task.ticket) (hholding : task.Holding) (hholding' : task'.Holding) :
    Holds (Function.update posts p (some task')) q c t ↔ Holds posts q c t := by
  by_cases hq : q = p
  · subst hq
    rw [holds_update_self, hcell, hticket]
    constructor
    · rintro ⟨_, hc, ht⟩
      exact ⟨task, hp, hholding, hc, ht⟩
    · rintro ⟨task'', htask'', _, hc, ht⟩
      rw [hp] at htask''
      cases htask''
      exact ⟨hholding', hc, ht⟩
  · exact holds_update_of_ne hq

/-- The handler is called: no other thread holds the ticket that is served. -/
theorem Inv.begin (hholding : task.Holding)
    (hidle : task.Idle) (hc : cells task.cell = some cell) (hserving : cell.serving = task.ticket) :
    Inv Behaves (Function.update cells task.cell (some cell.call))
      (Function.update posts p (some { task with phase := .handling cell.state })) := by
  obtain ⟨cell', hc', hkept⟩ := h.tasks p task hp hholding
  rw [hc] at hc'
  cases hc'
  have hcell := h.kept _ cell hc
  have hlt : cell.serving < cell.nextTicket := by
    rw [hserving, hcell.issued]
    exact (List.getElem?_eq_some_iff.mp hkept.sent).1
  have hnew : cell.serving ∉ cell.begun := hserving ▸ hkept.idle hidle
  have hholds : ∀ q c t, Holds (Function.update posts p
      (some { task with phase := .handling cell.state })) q c t ↔ Holds posts q c t :=
    fun q c t => holds_update_same hp rfl rfl hholding fun reply heq => by cases heq
  refine ⟨?_, ?_, ?_, ?_⟩
  · intro c cell' hcell'
    by_cases hne : c = task.cell
    · subst hne
      rw [update_self] at hcell'
      cases hcell'
      exact hcell.call hlt hnew
    · rw [update_of_ne hne] at hcell'
      exact h.kept c cell' hcell'
  · intro q task' hq hholding'
    by_cases hqp : q = p
    · subst hqp
      rw [update_self] at hq
      cases hq
      refine ⟨_, update_self _ _ _, hkept.le, hkept.sent, hkept.handler, ?_, ?_⟩
      · intro state hstate
        cases hstate
        refine ⟨hserving.symm, rfl, ?_⟩
        show task.ticket ∈ cell.begun ++ [cell.serving]
        rw [hserving]
        exact mem_append_right _ (mem_singleton_self _)
      · exact fun hidle' => absurd rfl (hidle' cell.state)
    · rw [update_of_ne hqp] at hq
      obtain ⟨cell', hcell', hkept'⟩ := h.tasks q task' hq hholding'
      by_cases hsame : task'.cell = task.cell
      · rw [hsame, hc] at hcell'
        cases hcell'
        refine ⟨cell.call, by rw [hsame]; exact update_self _ _ _, ?_⟩
        -- another thread holds another ticket
        have hne : task'.ticket ≠ cell.serving := by
          intro heq
          apply hqp
          exact h.apart q p task.cell task.ticket ⟨task', hq, hholding', hsame, heq.trans hserving⟩
            ⟨task, hp, hholding, rfl, rfl⟩
        refine ⟨hkept'.le, hkept'.sent, hkept'.handler, ?_, ?_⟩
        · intro state hstate
          exact absurd (hkept'.handling state hstate).1 hne
        · intro hidle' hmem
          rcases mem_append.mp hmem with hmem | hmem
          · exact hkept'.idle hidle' hmem
          · exact hne (mem_singleton.mp hmem)
      · exact ⟨cell', by rw [update_of_ne hsame]; exact hcell', hkept'⟩
  · intro q q' c t hq hq'
    exact h.apart q q' c t ((hholds q c t).mp hq) ((hholds q' c t).mp hq')
  · intro c cell' hcell' t hle hlt'
    have hold : ∃ cell₀, cells c = some cell₀ ∧ cell₀.serving ≤ t ∧ t < cell₀.nextTicket := by
      by_cases hne : c = task.cell
      · subst hne
        rw [update_self] at hcell'
        cases hcell'
        exact ⟨cell, hc, hle, hlt'⟩
      · rw [update_of_ne hne] at hcell'
        exact ⟨cell', hcell', hle, hlt'⟩
    obtain ⟨cell₀, hc₀, hle₀, hlt₀⟩ := hold
    obtain ⟨q, hq⟩ := h.held c cell₀ hc₀ t hle₀ hlt₀
    exact ⟨q, (hholds q c t).mpr hq⟩

/-- **The turn is over**: the ticket is given back, and the next one is served. -/
theorem Inv.pass (hholding : task.Holding) (hc : cells task.cell = some cell) (hserving : cell.serving = task.ticket)
    {entry : Entry D} (hentry : entry.Right Behaves cell cell.serving cell.log)
    (hstate : newState.getD cell.state = entry.apply cell.state) {o : Option (Task D)}
    (ho : ∀ task', o = some task' → ¬ task'.Holding) :
    Inv Behaves (Function.update cells task.cell (some (cell.advance newState entry)))
      (Function.update posts p o) := by
  obtain ⟨cell', hc', hkept⟩ := h.tasks p task hp hholding
  rw [hc] at hc'
  cases hc'
  have hcell := h.kept _ cell hc
  have hlt : cell.serving < cell.nextTicket := by
    rw [hserving, hcell.issued]
    exact (List.getElem?_eq_some_iff.mp hkept.sent).1
  have hself : ∀ c t, ¬ Holds (Function.update posts p o) p c t := by
    rintro c t ⟨task', htask', hholding', _⟩
    rw [update_self] at htask'
    exact ho task' htask' hholding'
  have hholds : ∀ q c t, Holds (Function.update posts p o) q c t → q ≠ p ∧ Holds posts q c t := by
    intro q c t hq
    have hqp : q ≠ p := fun heq => hself c t (heq ▸ hq)
    exact ⟨hqp, (holds_update_of_ne hqp).mp hq⟩
  refine ⟨?_, ?_, ?_, ?_⟩
  · intro c cell' hcell'
    by_cases hne : c = task.cell
    · subst hne
      rw [update_self] at hcell'
      cases hcell'
      exact hcell.advance hlt hentry hstate
    · rw [update_of_ne hne] at hcell'
      exact h.kept c cell' hcell'
  · intro q task' hq hholding'
    obtain ⟨hqp, hq', _⟩ := hholds q _ _ ⟨task', hq, hholding', rfl, rfl⟩
    rw [update_of_ne hqp] at hq
    obtain ⟨cell', hcell', hkept'⟩ := h.tasks q task' hq hholding'
    by_cases hsame : task'.cell = task.cell
    · rw [hsame, hc] at hcell'
      cases hcell'
      have hne : task'.ticket ≠ cell.serving := by
        intro heq
        apply hqp
        exact h.apart q p task.cell task.ticket ⟨task', hq, hholding', hsame, heq.trans hserving⟩
          ⟨task, hp, hholding, rfl, rfl⟩
      refine ⟨_, by rw [hsame]; exact update_self _ _ _, ?_⟩
      have hle := hkept'.le
      refine ⟨?_, hkept'.sent, hkept'.handler, ?_, hkept'.idle⟩
      · show cell.serving + 1 ≤ task'.ticket
        omega
      · intro state hstate'
        exact absurd (hkept'.handling state hstate').1 hne
    · exact ⟨cell', by rw [update_of_ne hsame]; exact hcell', hkept'⟩
  · intro q q' c t hq hq'
    exact h.apart q q' c t (hholds q c t hq).2 (hholds q' c t hq').2
  · intro c cell' hcell' t hle hlt'
    by_cases hne : c = task.cell
    · subst hne
      rw [update_self] at hcell'
      cases hcell'
      have hle : cell.serving + 1 ≤ t := hle
      obtain ⟨q, hq⟩ := h.held _ cell hc t (by omega) hlt'
      refine ⟨q, (holds_update_of_ne ?_).mpr hq⟩
      rintro rfl
      obtain ⟨task', htask', _, _, rfl⟩ := hq
      rw [hp] at htask'
      cases htask'
      omega
    · rw [update_of_ne hne] at hcell'
      obtain ⟨q, hq⟩ := h.held c cell' hcell' t hle hlt'
      refine ⟨q, (holds_update_of_ne ?_).mpr hq⟩
      rintro rfl
      obtain ⟨task', htask', _, hcell₀, _⟩ := hq
      rw [hp] at htask'
      cases htask'
      exact hne hcell₀.symm

theorem Inv.drop (hholding : ¬ task.Holding) : Inv Behaves cells (Function.update posts p none) := by
  have hholds : ∀ q c t, Holds (Function.update posts p none) q c t ↔ Holds posts q c t := by
    intro q c t
    by_cases hq : q = p
    · subst hq
      refine iff_of_false not_holds_update_none ?_
      rintro ⟨task', htask', hholding', _⟩
      rw [hp] at htask'
      cases htask'
      exact hholding hholding'
    · exact holds_update_of_ne hq
  refine ⟨h.kept, ?_, ?_, ?_⟩
  · intro q task' hq hholding'
    obtain ⟨task'', hq', _⟩ := (hholds q _ _).mp ⟨task', hq, hholding', rfl, rfl⟩
    by_cases hqp : q = p
    · subst hqp
      rw [update_self] at hq
      cases hq
    · rw [update_of_ne hqp] at hq
      exact h.tasks q task' hq hholding'
  · intro q q' c t hq hq'
    exact h.apart q q' c t ((hholds q c t).mp hq) ((hholds q' c t).mp hq')
  · intro c cell hc t hle hlt
    obtain ⟨q, hq⟩ := h.held c cell hc t hle hlt
    exact ⟨q, (hholds q c t).mpr hq⟩

omit hp

omit h

/-! ## Every step -/

/-- What stands at each place of the stacks. -/
def State.post (s : State D) : Posts D := fun p => (s.threads p.1)[p.2]?

section Stacks

variable {s : State D} {τ w : Nat} {stack : List (Task D)}

theorem posts_top (h : s.threads τ = stack ++ [task]) : s.post (τ, stack.length) = some task := by
  rw [State.post, h]
  exact getElem?_concat_length

theorem posts_end : s.post (τ, (s.threads τ).length) = none := getElem?_eq_none le_rfl

theorem posts_push : (s.setThread τ (s.threads τ ++ [task])).post =
      Function.update s.post (τ, (s.threads τ).length) (some task) := by
  funext ⟨τ', i⟩
  show (Function.update s.threads τ _ τ')[i]? = _
  by_cases hτ : τ' = τ
  · subst hτ
    rw [update_self]
    by_cases hi : i = (s.threads τ').length
    · subst hi
      rw [update_self]
      exact getElem?_concat_length
    · rw [update_of_ne (by simpa using hi)]
      show _ = (s.threads τ')[i]?
      rcases Nat.lt_or_ge i (s.threads τ').length with hlt | hge
      · exact getElem?_append_left hlt
      · rw [getElem?_eq_none hge]
        simp
        omega
  · rw [update_of_ne hτ, update_of_ne (by simp [hτ])]
    rfl

theorem posts_top_update (h : s.threads τ = stack ++ [task]) (o : Option (Task D)) :
    (s.setThread τ (stack ++ o.toList)).post = Function.update s.post (τ, stack.length) o := by
  funext ⟨τ', i⟩
  show (Function.update s.threads τ _ τ')[i]? = _
  by_cases hτ : τ' = τ
  · subst hτ
    rw [update_self]
    by_cases hi : i = stack.length
    · subst hi
      rw [update_self]
      cases o with
      | none => simp
      | some task' => exact getElem?_concat_length
    · rw [update_of_ne (by simpa using hi)]
      show _ = (s.threads τ')[i]?
      rw [h]
      rcases Nat.lt_or_ge i stack.length with hlt | hge
      · rw [getElem?_append_left hlt, getElem?_append_left hlt]
      · rw [getElem?_eq_none]
        · simp
          omega
        · cases o <;> simp <;> omega
  · rw [update_of_ne hτ, update_of_ne (by simp [hτ])]
    rfl

theorem posts_spawned (h : s.threads τ = stack ++ [task]) (hw : s.threads w = []) :
    ((s.setThread τ stack).setThread w [task']).post =
      Function.update (Function.update s.post (τ, stack.length) none) (w, 0) (some task') := by
  have hne : w ≠ τ := by
    rintro rfl
    rw [h] at hw
    simp at hw
  have hempty : (s.setThread τ stack).threads w = [] := by
    show Function.update s.threads τ stack w = []
    rw [update_of_ne hne, hw]
  have hpush : ((s.setThread τ stack).setThread w ((s.setThread τ stack).threads w ++ [task'])).post = _ :=
    posts_push
  rw [hempty, nil_append, length_nil] at hpush
  rw [hpush, ← posts_top_update h none, toList_none, append_nil]

/-- What is left after a turn holds no ticket. -/
theorem Task.rest_eq (task : Task D) (result : Invoked D) :
    ∃ o : Option (Task D), task.rest result = o.toList ∧ ∀ task', o = some task' → ¬ task'.Holding := by
  unfold Task.rest
  split
  · exact ⟨none, rfl, fun _ h => by cases h⟩
  · exact ⟨none, rfl, fun _ h => by cases h⟩
  · refine ⟨some _, rfl, ?_⟩
    intro task' heq hholding
    cases heq
    exact hholding _ rfl

end Stacks

@[simp] theorem complete_cells (s : State D) (slot : Nat) (reply : Except (Failure D) (Value D)) :
    (s.complete slot reply).cells = s.cells := by
  rw [State.complete]
  split <;> rfl

@[simp] theorem complete_threads (s : State D) (slot : Nat) (reply : Except (Failure D) (Value D)) :
    (s.complete slot reply).threads = s.threads := by
  rw [State.complete]
  split <;> rfl

theorem complete_post (s : State D) (slot : Nat) (reply : Except (Failure D) (Value D)) :
    (s.complete slot reply).post = s.post := by
  funext p
  show ((s.complete slot reply).threads p.1)[p.2]? = _
  rw [complete_threads]
  rfl

theorem Inv.rephase {s : State D} {τ : Nat} {stack : List (Task D)} (h : Inv Behaves s.cells s.post)
    (htop : s.threads τ = stack ++ [task]) (hholding : task.Holding) (hidle : task.Idle)
    (hcell : task'.cell = task.cell) (hticket : task'.ticket = task.ticket)
    (hclosure : task'.closure = task.closure) (hmsg : task'.msg = task.msg) (hholding' : task'.Holding)
    (hidle' : task'.Idle) : Inv Behaves s.cells (s.setThread τ (stack ++ [task'])).post := by
  have hmove := h.move (posts_top htop) hholding hidle (.inr rfl) hcell hticket hclosure hmsg hholding' hidle'
  rw [update_idem] at hmove
  have hposts := posts_top_update htop (some task')
  rw [toList_some] at hposts
  rw [hposts]
  exact hmove

/-- **Every step keeps the invariant.** -/
theorem Inv.step {s s' : State D} (h : Inv Behaves s.cells s.post) (hstep : Step Behaves s s') :
    Inv Behaves s'.cells s'.post := by
  cases hstep with
  | spawn init code _ hc => exact h.new hc init _
  | bridge init hc => exact h.new hc init .native
  | native op slot reply _ _ _ _ =>
    cases op with
    | ask | tell => exact h
    | askAsync =>
      have hpost : ((s.makeSlot slot).complete slot reply).post = s.post := complete_post _ _ _
      rw [complete_cells, hpost]
      exact h
  | @send τ c cell closure op msg _ hc hhandler =>
    have hpost : ∀ task, ((s.setCell c (cell.issue msg)).setThread τ (s.threads τ ++ [task])).post =
        Function.update s.post (τ, (s.threads τ).length) (some task) := fun _ => posts_push
    rw [hpost]
    refine h.issue ⟨c, cell.nextTicket, closure, msg, op, none, false, _⟩ hc hhandler rfl ?_ ?_ posts_end
    · intro reply heq
      cases op <;> cases heq
    · intro state heq
      cases op <;> cases heq
  | @inline τ stack task slot htop hphase _ =>
    exact Inv.rephase (s := s.makeSlot slot) h htop (by simp [Task.Holding, hphase])
      (by simp [Task.Idle, hphase]) rfl rfl rfl rfl (fun _ heq => by cases heq) fun _ heq => by cases heq
  | @spawned τ stack task slot w htop hphase _ hw =>
    have hpost : (((s.makeSlot slot).setThread τ stack).setThread w
        [{ task with slot := some slot, worker := true, phase := .setup }]).post = _ :=
      posts_spawned (s := s.makeSlot slot) htop hw
    rw [hpost]
    refine h.move (posts_top htop) (by simp [Task.Holding, hphase]) (by simp [Task.Idle, hphase])
      (.inl ?_) rfl rfl rfl rfl (fun _ heq => by cases heq) (fun _ heq => by cases heq)
    rw [State.post, hw]
    rfl
  | notSpawned htop hphase | entered htop hphase | setupPanicked htop hphase =>
    exact h.rephase htop (by simp [Task.Holding, hphase]) (by simp [Task.Idle, hphase]) rfl rfl rfl rfl
      (fun _ heq => by cases heq) fun _ heq => by cases heq
  | @begin τ stack task cell htop hphase hc hserving =>
    have hposts := posts_top_update (s := s.setCell task.cell cell.call) htop
      (some { task with phase := .handling cell.state })
    rw [toList_some] at hposts
    rw [hposts]
    exact h.begin (posts_top htop) (by simp [Task.Holding, hphase]) (by simp [Task.Idle, hphase]) hc
      hserving
  | @finish τ stack task cell state result htop hphase hc hbehaves =>
    obtain ⟨o, hrest, ho⟩ := task.rest_eq result
    have hholding : task.Holding := by simp [Task.Holding, hphase]
    obtain ⟨cell', hc', hkept⟩ := h.tasks _ task (posts_top htop) hholding
    rw [hc] at hc'
    cases hc'
    obtain ⟨hticket, hstate, hbegun⟩ := hkept.handling state hphase
    have hright : (Entry.handled task.ticket task.msg state result).Right Behaves cell cell.serving
        cell.log := by
      refine ⟨hticket, hticket ▸ hkept.sent, hbegun, ?_, task.closure, hkept.handler, hbehaves⟩
      rw [hstate]
      exact (h.kept _ cell hc).state
    have hpost := posts_top_update (s := s.setCell task.cell (cell.advance result.newState
      (.handled task.ticket task.msg state result))) htop o
    rw [hrest, hpost]
    exact h.pass (posts_top htop) hholding hc hticket.symm hright rfl ho
  | @skip τ stack task cell htop hphase hc hserving =>
    obtain ⟨o, hrest, ho⟩ := task.rest_eq .panicked
    have hholding : task.Holding := by simp [Task.Holding, hphase]
    obtain ⟨cell', hc', hkept⟩ := h.tasks _ task (posts_top htop) hholding
    rw [hc] at hc'
    cases hc'
    have hpost := posts_top_update
      (s := s.setCell task.cell (cell.advance none (.skipped task.ticket))) htop o
    rw [hrest, hpost]
    have hright : (Entry.skipped task.ticket).Right Behaves cell cell.serving cell.log :=
      ⟨hserving.symm, hkept.idle (by simp [Task.Idle, hphase])⟩
    exact h.pass (posts_top htop) hholding hc hserving hright rfl ho
  | @replied τ stack task slot reply htop hphase _ =>
    have htop' : (s.complete slot reply).threads τ = stack ++ [task] := by
      rw [complete_threads]
      exact htop
    have hposts := posts_top_update htop' none
    rw [toList_none, append_nil] at hposts
    rw [hposts]
    show Inv Behaves (s.complete slot reply).cells _
    rw [complete_cells, complete_post]
    exact h.drop (posts_top htop) fun hholding => hholding reply hphase
  | await => exact h
  | rejected => exact h

theorem inv_of_reachable {s : State D} (h : Reachable Behaves s) : Inv Behaves s.cells s.post := by
  induction h with
  | refl => exact Inv.initial
  | tail _ hstep ih => exact ih.step hstep

/-! ## What is promised -/

variable (Behaves)

/-- **Turns of an actor are serialized and lossless.** -/
structure Serialized (s : State D) (c : Nat) (cell : ActorCell D) : Prop where
  /-- At most one message is being handled, the one whose ticket is served. -/
  oneAtATime : ∀ p q (task task' : Task D) state state', s.post p = some task → s.post q = some task' →
    task.cell = c → task'.cell = c → task.phase = .handling state → task'.phase = .handling state' →
      p = q ∧ task.ticket = cell.serving
  /-- The handling of messages has ended in the order of their tickets, once for each. -/
  inOrder : cell.log.map Entry.ticket = range cell.serving
  /-- The handler was called in the order of the tickets, at most once for each. -/
  begunOnce : cell.begun.Pairwise (· < ·)
  /-- The tickets were given out in the order of the messages. -/
  issued : cell.nextTicket = cell.sent.length
  /-- What was handled is the message with this ticket, on the state that the messages before it left. -/
  entries : ∀ (i : Nat) (entry : Entry D), cell.log[i]? = some entry →
    entry.Right Behaves cell i (cell.log.take i)
  /-- A ticket that no thread holds any more has been passed. -/
  passed : ∀ t < cell.nextTicket, (∀ p, ¬ Holds s.post p c t) → t < cell.serving
  /-- The state is the left fold of the handlers that succeeded. -/
  state : cell.state = stateAfter cell.initial cell.log

variable {Behaves}

theorem map_ticket_log (h : cell.Kept Behaves) : cell.log.map Entry.ticket = range cell.serving := by
  apply ext_getElem?
  intro i
  rw [getElem?_map]
  cases hentry : cell.log[i]? with
  | none =>
    have hge : cell.serving ≤ i := by
      rw [h.served]
      exact List.getElem?_eq_none_iff.mp hentry
    rw [getElem?_eq_none (by simpa using hge)]
    rfl
  | some entry =>
    have hlt : i < cell.serving := by
      rw [h.served]
      exact (List.getElem?_eq_some_iff.mp hentry).1
    have hticket : entry.ticket = i := by
      have hright := h.entries i entry hentry
      cases entry <;> exact hright.1
    rw [getElem?_range hlt, map_some, hticket]

end Turns

/-- A handler that stores the message and replies with the state before. -/
def storing : Value Nat → Value Nat → Value Nat → Invoked Nat → Prop :=
  fun _ state msg result => result = .ok (.tuple [msg, state])

end LexLang.Actor
