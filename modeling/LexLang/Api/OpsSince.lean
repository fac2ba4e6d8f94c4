/-
# LexLang.Api.OpsSince — paged pulls without a cursor, and the table of page ends behind them

`GET /v1/ops/since?after=X&limit=n` (`lex-api/src/ops_since_http.rs`) over one op log and one head.
A page is a piece of the delta's topological order. The server notes where each page ended, so that
the client's next `after`, the last op it was sent, resumes at that position; a client whose `after`
is not in the table gets the ops outside `after`'s ancestry. The note is found by head and last op
alone, whoever it was written for.

`legacyPull_lossless` is what the protocol achieves, over every interleaving of clients and every
loss of notes: a client that is only ever resumed where it holds what the note passes over ends its
pull with the whole history.

A note disappears by its age, by the size of the table, or by a cursor request for the same op.
-/
import LexLang.Vcs.HistoryIndex

namespace LexLang.Api

open LexLang.Graph LexLang.Vcs
open Function List Option Relation.ReflTransGen

/-! ## The table of page ends -/

/-- A page of the delta of `head` and `base` ended at `endPos`, and its last op was `last`. -/
structure Continuation where
  head : OpId
  last : OpId
  base : Option OpId
  endPos : Nat
  deriving DecidableEq

/-- Page ends remembered. -/
def maxContinuations : Nat := 256

/-- **The page end recorded for `last`**, if all there are agree; it is used up. -/
def takeContinuation (conts : List Continuation) (head last : OpId) :
    Option Continuation × List Continuation :=
  let hits := conts.filter fun c => decide (c.head = head ∧ c.last = last)
  match hits with
  | [] => (none, conts)
  | first :: _ =>
    if hits.any fun c => decide ((c.base, c.endPos) ≠ (first.base, first.endPos)) then (none, conts)
    else (some first, conts.filter fun c => !decide (c.head = head ∧ c.last = last))

/-- Record a page end, once, and drop the oldest beyond the table's size. -/
def recordContinuation (conts : List Continuation) (c : Continuation) : List Continuation :=
  let conts := (conts.filter fun o => !decide (o = c)) ++ [c]
  conts.drop (conts.length - maxContinuations)

/-! ## One request -/

/-- A paged request without a cursor. `filesV1`: the client can store file snapshots. -/
structure Request where
  after : Option OpId
  limit : Nat
  filesV1 : Bool

/-- What the client is sent. -/
inductive Reply
  | page (ops : List OperationRecord)
  /-- `426`: the history holds a file snapshot, the op named. -/
  | upgradeRequired (opId : OpId)

/-- A record is a file snapshot. -/
def isSetFiles (record : OperationRecord) : Bool :=
  match record.op.kind with
  | .setFiles _ => true
  | _ => false

/-- Where a request starts: at the page end recorded for its `after`, else at the front of the ops
outside `after`'s ancestry. -/
def startOf (conts : List Continuation) (head : OpId) (after : Option OpId) :
    (Option OpId × Nat) × List Continuation :=
  match after with
  | none => ((none, 0), conts)
  | some last =>
    match takeContinuation conts head last with
    | (some c, conts) => ((c.base, c.endPos), conts)
    | (none, conts) => ((some last, 0), conts)

section Serve

variable (log : OpLog) (head : OpId)

/-- The delta of a base, in the order it is paged in. -/
def deltaOrder (base : Option OpId) : List OpId :=
  let index := HistoryIndex.build log head
  (index.topological (index.since log base)).filterMap index.id

/-- **Serve one paged request**: the reply, and the table it leaves. -/
def serve (conts : List Continuation) (request : Request) : Reply × List Continuation :=
  let ((base, offset), conts) := startOf conts head request.after
  let order := deltaOrder log head base
  let total := order.length
  let endPos := min (offset + request.limit) total
  let ops := ((order.drop offset).take (endPos - offset)).filterMap log.get
  -- at the start of a pull the ops past the page are scanned too
  let scanned := ops ++
    if offset = 0 then (order.drop endPos).filterMap log.get else []
  match if request.filesV1 then none else scanned.find? isSetFiles with
  | some record => (.upgradeRequired record.opId, conts)
  | none =>
    (.page ops,
      if endPos < total then
        match ops.getLast? with
        | some record => recordContinuation conts { head, last := record.opId, base, endPos }
        | none => conts
      else conts)

end Serve

/-! ## Clients and runs -/

/-- A client in the middle of a pull: what it held before, what it was sent, what it will ask for
next, and whether an empty page ended the pull. -/
structure Client where
  held : List OpId
  received : List OpId
  after : Option OpId
  done : Bool

namespace Client

/-- What the client has by now. -/
def Has (client : Client) (id : OpId) : Prop := id ∈ client.held ∨ id ∈ client.received

/-- The client after a reply. -/
def receive (client : Client) : Reply → Client
  | .page ops =>
    match ops.getLast? with
    | some record =>
      { client with
        received := client.received ++ ops.map OperationRecord.opId
        after := some record.opId }
    | none => { client with done := true }
  | .upgradeRequired _ => client

end Client

/-- The table and the clients. -/
structure World (ι : Type) where
  conts : List Continuation
  clients : ι → Client

/-- What can happen next: a client asks for its next page, or the table loses notes. -/
inductive Action (ι : Type)
  | request (client : ι) (limit : Nat) (filesV1 : Bool)
  | evict (keeps : Continuation → Bool)

section Run

variable {ι : Type} [DecidableEq ι] (log : OpLog) (head : OpId)

/-- The request a client makes. -/
def World.requestOf (world : World ι) (client : ι) (limit : Nat) (filesV1 : Bool) : Request :=
  { after := (world.clients client).after, limit, filesV1 }

/-- **One step.** -/
def step (world : World ι) : Action ι → World ι
  | .request client limit filesV1 =>
    let (reply, conts) := serve log head world.conts (world.requestOf client limit filesV1)
    { conts
      clients := Function.update world.clients client ((world.clients client).receive reply) }
  | .evict keeps => { world with conts := world.conts.filter keeps }

/-- **A run**, in any order of steps. -/
def run (world : World ι) (actions : List (Action ι)) : World ι :=
  actions.foldl (step log head) world

/-- The ops of the head's history. -/
def InHistory (id : OpId) : Prop := log.Reach head id ∧ log.get id ≠ none

/-- The start of a run: no notes, and every client about to ask for its first page, with an `after`
whose ancestry it holds, if it has one. -/
structure Start (world : World ι) : Prop where
  conts : world.conts = []
  fresh : ∀ i, (world.clients i).received = [] ∧ (world.clients i).done = false
  cutoff : ∀ i after, (world.clients i).after = some after →
    ∀ id, log.Reach after id → id ∈ (world.clients i).held

/-- **No client is done without the whole history.** -/
def Lossless (world : World ι) : Prop :=
  ∀ i, (world.clients i).done = true → ∀ id, InHistory log head id → (world.clients i).Has id

/-- Every request asks for something. -/
def Action.positive : Action ι → Prop
  | .request _ limit _ => 0 < limit
  | .evict _ => True

/-- **A request is resumed where its client is**: if it is served from a note, the client has every
op of the history that the note does not list any more. -/
def ResumesOwn (world : World ι) : Action ι → Prop
  | .request client _ _ =>
    ∀ last, (world.clients client).after = some last →
      ∀ c, (takeContinuation world.conts head last).1 = some c →
        ∀ id, InHistory log head id → id ∉ (deltaOrder log head c.base).drop c.endPos →
          (world.clients client).Has id
  | .evict _ => True

/-- Every step of a run meets a condition on the world before it. -/
def AllMeet (meets : World ι → Action ι → Prop) : World ι → List (Action ι) → Prop
  | _, [] => True
  | world, action :: actions =>
    meets world action ∧ AllMeet meets (step log head world action) actions

end Run

/-! ## What a page holds -/

variable {base : Option OpId} {id : OpId} {conts : List Continuation} {ops : List OperationRecord}

section Page

variable {log : OpLog} {head : OpId}

/-- A delta lists the ops of the history outside its base's ancestry. -/
theorem mem_deltaOrder_iff (hac : log.Acyclic) : id ∈ deltaOrder log head base ↔
      InHistory log head id ∧ ∀ b, base = some b → ¬ log.Reach b id :=
  HistoryIndex.mem_filterMap_id_iff (HistoryIndex.topological_perm hac base)

theorem nodup_deltaOrder (hac : log.Acyclic) (base : Option OpId) : (deltaOrder log head base).Nodup := by
  refine Nodup.filterMap (fun i j id hi hj => ?_)
    ((HistoryIndex.topological_perm hac base).nodup_iff.mpr (HistoryIndex.since_nodup base))
  exact some.inj
    ((HistoryIndex.pos_build.mpr hi).symm.trans (HistoryIndex.pos_build.mpr hj))

theorem map_opId_page (hac : log.Acyclic) {conts' : List Continuation} {request : Request}
    (h : serve log head conts request = (.page ops, conts')) : ops.map OperationRecord.opId =
      ((deltaOrder log head (startOf conts head request.after).1.1).drop
        (startOf conts head request.after).1.2).take request.limit := by
  unfold serve at h
  obtain ⟨⟨⟨base, offset⟩, table⟩, hstart⟩ : ∃ start, startOf conts head request.after = start :=
    ⟨_, rfl⟩
  rw [hstart] at h ⊢
  simp only at h ⊢
  split at h
  · cases h
  · obtain ⟨h, -⟩ := Prod.mk.inj h
    obtain rfl := Reply.page.inj h
    rw [OpLog.map_opId_filterMap_get]
    · apply take_eq_take_iff.mpr
      rw [length_drop]
      omega
    · intro id hid
      have hmem := mem_of_mem_drop (mem_of_mem_take hid)
      exact ((mem_deltaOrder_iff hac).mp hmem).1.2

/-- **A page boundary is closed under parents.** Whatever of a delta is in the ancestry of an op
before the boundary is before it too. -/
theorem mem_left_of_reach (hac : log.Acyclic) {left right : List OpId}
    (h : deltaOrder log head base = left ++ right) {a : OpId} (ha : a ∈ left)
    (hreach : log.Reach a id) (hid : id ∈ left ++ right) : id ∈ left := by
  have hfirst : HistoryIndex.ParentsFirst log (left ++ right) :=
    h ▸ HistoryIndex.parentsFirst_topological hac base
  rw [← h] at hid
  obtain ⟨hin, hout⟩ := (mem_deltaOrder_iff hac).mp hid
  induction hreach using head_induction_on with
  | refl => exact ha
  | @head a c hac' hcid ih =>
    -- the next op on the way is in the delta too, so it is on the near side of the boundary
    have hmem : a ∈ deltaOrder log head base := h ▸ mem_append_left _ ha
    have hheld : log.get c ≠ none := by
      rcases cases_head hcid with rfl | ⟨d, hcd, _⟩
      · exact hin.2
      · obtain ⟨record, hrecord, _⟩ := OpLog.edge_iff.mp hcd
        simp [hrecord]
    have hc : c ∈ deltaOrder log head base := by
      refine (mem_deltaOrder_iff hac).mpr ⟨⟨?_, hheld⟩, fun b hb hbc => ?_⟩
      · exact ((mem_deltaOrder_iff hac).mp hmem).1.1.tail hac'
      · exact hout b hb (hbc.trans hcid)
    rw [h, mem_append] at hc
    rcases hc with hc | hc
    · exact ih hc
    · exact absurd hac' ((pairwise_append.mp hfirst).2.2 a ha c hc)

end Page

/-! ## One page more -/

section Receive

variable {log : OpLog} {head : OpId} {client : Client}

theorem Client.has_of_page (h : id ∈ ops.map OperationRecord.opId) : (client.receive (.page ops)).Has id := by
  unfold Client.receive
  simp only
  split
  · exact .inr (mem_append_right _ h)
  · rename_i hlast
    rw [getLast?_eq_none_iff.mp hlast] at h
    simp at h

theorem Client.Has.receive (h : client.Has id) (reply : Reply) : (client.receive reply).Has id := by
  unfold Client.receive
  cases reply with
  | upgradeRequired _ => exact h
  | page ops =>
    simp only
    split
    · exact h.imp_right fun h => mem_append_left _ h
    · exact h

/-- **The client has its next `after`'s ancestry**, as far as the history holds it. -/
def Covered (log : OpLog) (head : OpId) (client : Client) : Prop :=
  ∀ last, client.after = some last →
    ∀ id, InHistory log head id → log.Reach last id → client.Has id

/-- The client has the whole history once it is done. -/
def Complete (log : OpLog) (head : OpId) (client : Client) : Prop :=
  client.done = true → ∀ id, InHistory log head id → client.Has id

/-- **A page from where the client is keeps both**: an empty one says there was nothing left, and
any other ends on an op all of whose ancestry the client now has. -/
theorem receive_page (hac : log.Acyclic) (hcomplete : Complete log head client)
    {offset limit : Nat} (hlimit : 0 < limit)
    (hops : ops.map OperationRecord.opId = ((deltaOrder log head base).drop offset).take limit)
    (hskipped : ∀ id, InHistory log head id → id ∉ (deltaOrder log head base).drop offset →
      client.Has id) (hcovered : Covered log head client) : Covered log head (client.receive (.page ops)) ∧
      Complete log head (client.receive (.page ops)) := by
  cases hlast : ops.getLast? with
  | none =>
    -- the page is empty, so the client was sent everything before
    have hnil : (deltaOrder log head base).drop offset = [] := by
      rw [getLast?_eq_none_iff.mp hlast, map_nil] at hops
      exact (take_eq_nil_iff.mp hops.symm).resolve_left (by omega)
    have hall : ∀ id, InHistory log head id → client.Has id := by
      intro id hid
      apply hskipped id hid
      rw [hnil]
      simp
    unfold Client.receive
    simp only [hlast]
    exact ⟨hcovered, fun _ => hall⟩
  | some record =>
    have hmem : record.opId ∈ ((deltaOrder log head base).drop offset).take limit := by
      rw [← hops]
      exact mem_map_of_mem (mem_of_getLast? hlast)
    have hsplit : deltaOrder log head base =
        ((deltaOrder log head base).take offset ++
          ((deltaOrder log head base).drop offset).take limit) ++
            ((deltaOrder log head base).drop offset).drop limit := by
      rw [append_assoc, take_append_drop, take_append_drop]
    have hreceived : (client.receive (.page ops)) =
        { client with
          received := client.received ++ ops.map OperationRecord.opId
          after := some record.opId } := by
      unfold Client.receive
      simp only [hlast]
    refine ⟨fun last hafter id hid hreach => ?_, fun hdone id hid => ?_⟩
    · rw [hreceived] at hafter
      obtain rfl := some.inj hafter
      by_cases hdrop : id ∈ (deltaOrder log head base).drop offset
      · have hdelta : id ∈ deltaOrder log head base := mem_of_mem_drop hdrop
        have hleft := mem_left_of_reach hac hsplit (mem_append_right _ hmem) hreach
          (hsplit ▸ hdelta)
        rcases mem_append.mp hleft with htake | hpage
        · exact absurd hdrop (disjoint_take_drop (nodup_deltaOrder hac base) le_rfl htake)
        · rw [hreceived]
          exact .inr (mem_append_right _ (hops ▸ hpage))
      · exact (hskipped id hid hdrop).receive _
    · rw [hreceived] at hdone
      exact (hcomplete hdone id hid).receive _

end Receive

/-! ## Whole runs -/

section Lossless

variable {ι : Type} [DecidableEq ι] {log : OpLog} {head : OpId} {world : World ι}

/-- What every client keeps through a run. -/
def Kept (log : OpLog) (head : OpId) (world : World ι) : Prop :=
  ∀ i, Covered log head (world.clients i) ∧ Complete log head (world.clients i)

omit [DecidableEq ι] in
theorem Start.kept (h : Start log world) : Kept log head world := by
  intro i
  refine ⟨fun last hafter id _ hreach => .inl (h.cutoff i last hafter id hreach), fun hdone => ?_⟩
  rw [(h.fresh i).2] at hdone
  cases hdone

omit [DecidableEq ι] in
/-- Wherever a request is started from, its client has what is passed over. -/
theorem has_of_passedOver (hac : log.Acyclic) {i : ι} {limit : Nat} {filesV1 : Bool}
    (hcovered : Covered log head (world.clients i)) (hmeet : ResumesOwn log head world (.request i limit filesV1))
    (hid : InHistory log head id) (hpassed : id ∉ (deltaOrder log head
      (startOf world.conts head (world.clients i).after).1.1).drop
        (startOf world.conts head (world.clients i).after).1.2) : (world.clients i).Has id := by
  unfold startOf at hpassed
  cases hafter : (world.clients i).after with
  | none =>
    -- a pull from nothing passes nothing over
    rw [hafter] at hpassed
    exact absurd ((mem_deltaOrder_iff hac).mpr ⟨hid, by simp⟩) hpassed
  | some last =>
    simp only [hafter] at hpassed
    cases htake : takeContinuation world.conts head last with
    | mk taken table =>
      rw [htake] at hpassed
      cases taken with
      | some c => exact hmeet last hafter c (by rw [htake]) id hid hpassed
      | none =>
        have hreach : log.Reach last id := by
          by_contra hno
          exact hpassed ((mem_deltaOrder_iff hac).mpr ⟨hid, by simpa using hno⟩)
        exact hcovered last hafter id hid hreach

theorem step_clients (world : World ι) (client : ι) (limit : Nat) (filesV1 : Bool) :
    (Api.step log head world (.request client limit filesV1)).clients =
      Function.update world.clients client ((world.clients client).receive
        (serve log head world.conts (world.requestOf client limit filesV1)).1) := rfl

theorem Kept.step (hac : log.Acyclic) (h : Kept log head world) {action : Action ι}
    (hpos : action.positive) (hmeet : ResumesOwn log head world action) :
    Kept log head (Api.step log head world action) := by
  cases action with
  | evict keeps => exact h
  | request client limit filesV1 =>
    intro i
    rw [step_clients]
    by_cases hi : i = client
    · subst hi
      rw [update_self]
      cases hserve : serve log head world.conts (world.requestOf i limit filesV1) with
      | mk reply table =>
        cases reply with
        | upgradeRequired _ => exact h i
        | page ops =>
          exact receive_page hac (h i).2 hpos (map_opId_page hac hserve)
            (fun id => has_of_passedOver hac (h i).1 hmeet) (h i).1
    · rw [update_of_ne hi]
      exact h i

theorem Kept.run (hac : log.Acyclic) : ∀ (actions : List (Action ι)) {world : World ι},
    Kept log head world → (∀ action ∈ actions, action.positive) →
      AllMeet log head (ResumesOwn log head) world actions →
      Kept log head (run log head world actions)
  | [], _, h, _, _ => h
  | action :: actions, _, h, hpos, hmeet =>
    Kept.run hac actions (h.step hac (hpos action mem_cons_self) hmeet.1)
      (fun action ha => hpos action (mem_cons_of_mem _ ha)) hmeet.2

/-- **A pull resumed at its own notes loses nothing**, whatever the other clients ask for in between
and whichever notes are lost: over any acyclic log, a client that was sent an empty page has every op
of the head's history. -/
theorem legacyPull_lossless (hac : log.Acyclic) (hstart : Start log world)
    (actions : List (Action ι)) (hpos : ∀ action ∈ actions, action.positive)
    (hmeet : AllMeet log head (ResumesOwn log head) world actions) : Lossless log head (run log head world actions) :=
  fun i => (Kept.run hac actions hstart.kept hpos hmeet i).2

/-! ### A client alone -/

/-- Every note of the head is one the client can be resumed at. -/
def NotesOwn (log : OpLog) (head : OpId) (world : World ι) (i : ι) : Prop :=
  ∀ c ∈ world.conts, c.head = head → ∀ id, InHistory log head id →
    id ∉ (deltaOrder log head c.base).drop c.endPos → (world.clients i).Has id

variable {c : Continuation}

/-- A note taken is one of the table's, for the head. -/
theorem of_takeContinuation {last : OpId}
    (h : (takeContinuation conts head last).1 = some c) : c ∈ conts ∧ c.head = head := by
  unfold takeContinuation at h
  simp only at h
  split at h
  · cases h
  · rename_i first rest hhits
    split at h
    · cases h
    · obtain rfl := some.inj h
      have hmem : first ∈ conts.filter fun c => decide (c.head = head ∧ c.last = last) := by
        rw [hhits]
        exact mem_cons_self
      simp only [mem_filter, decide_eq_true_eq] at hmem
      exact ⟨hmem.1, hmem.2.1⟩

/-- Looking a note up leaves no note that was not there. -/
theorem mem_startOf {after : Option OpId} (h : c ∈ (startOf conts head after).2) : c ∈ conts := by
  unfold startOf at h
  cases after with
  | none => exact h
  | some last =>
    have htable : (takeContinuation conts head last).2.Sublist conts := by
      unfold takeContinuation
      simp only
      split
      · exact Sublist.refl _
      · split
        · exact Sublist.refl _
        · exact filter_sublist
    simp only at h
    split at h <;> rename_i hstart
    · exact htable.mem (by rw [hstart]; exact h)
    · exact htable.mem (by rw [hstart]; exact h)

/-- Recording a note leaves no other new one. -/
theorem mem_recordContinuation {c' : Continuation} (h : c ∈ recordContinuation conts c') : c ∈ conts ∨ c = c' := by
  unfold recordContinuation at h
  simp only at h
  have hmem := mem_of_mem_drop h
  rw [mem_append, mem_filter, mem_singleton] at hmem
  exact hmem.imp_left And.left

/-- **The notes a request leaves**: those that were there, and the end of its own page. -/
theorem mem_serve {request : Request} (h : c ∈ (serve log head conts request).2) : c ∈ conts ∨
      ∃ ops, (serve log head conts request).1 = .page ops ∧ c.base = (startOf conts head request.after).1.1 ∧
        c.endPos = min ((startOf conts head request.after).1.2 + request.limit)
          (deltaOrder log head c.base).length := by
  obtain ⟨⟨⟨base, offset⟩, table⟩, hstart⟩ : ∃ start, startOf conts head request.after = start :=
    ⟨_, rfl⟩
  have htable : ∀ c ∈ table, c ∈ conts := fun c hc => mem_startOf (by rw [hstart]; exact hc)
  unfold serve at h ⊢
  rw [hstart] at h ⊢
  simp only at h ⊢
  split at h
  · exact .inl (htable c h)
  · split at h
    · split at h
      · rename_i record _
        simp only at h
        rcases mem_recordContinuation h with hmem | rfl
        · exact .inl (htable c hmem)
        · exact .inr ⟨_, rfl, rfl, rfl⟩
      · exact .inl (htable c h)
    · exact .inl (htable c h)

/-- **A client alone is resumed at its own notes only.** -/
theorem allMeet_of_alone (hac : log.Acyclic) {i : ι} : ∀ (actions : List (Action ι)) {world : World ι},
    Kept log head world → NotesOwn log head world i →
      (∀ action ∈ actions, action.positive) →
      (∀ client limit filesV1, Action.request client limit filesV1 ∈ actions → client = i) →
      AllMeet log head (ResumesOwn log head) world actions
  | [], _, _, _, _, _ => trivial
  | .evict keeps :: actions, world, hkept, hnotes, hpos, halone => by
    refine ⟨trivial, allMeet_of_alone hac actions hkept (fun c hc => ?_)
      (fun action ha => hpos action (mem_cons_of_mem _ ha))
      fun client limit filesV1 ha => halone client limit filesV1 (mem_cons_of_mem _ ha)⟩
    exact hnotes c (mem_filter.mp hc).1
  | .request client limit filesV1 :: actions, world, hkept, hnotes, hpos, halone => by
    obtain rfl := halone client limit filesV1 mem_cons_self
    have hmeet : ResumesOwn log head world (.request client limit filesV1) := by
      intro last _ c hc
      obtain ⟨hmem, hhead⟩ := of_takeContinuation hc
      exact hnotes c hmem hhead
    have hlimit : 0 < limit := hpos _ mem_cons_self
    refine ⟨hmeet, allMeet_of_alone hac actions
      (hkept.step hac hlimit hmeet) (fun c hc hhead id hid hpassed => ?_)
      (fun action ha => hpos action (mem_cons_of_mem _ ha))
      fun client limit filesV1 ha => halone client limit filesV1 (mem_cons_of_mem _ ha)⟩
    rw [step_clients, update_self]
    rcases mem_serve hc with hold | ⟨ops, hreply, hbase, hend⟩
    · exact (hnotes c hold hhead id hid hpassed).receive _
    · -- what the new note passes over was passed over before, or is on this page
      rw [hreply]
      have hops := map_opId_page hac (Prod.ext hreply rfl :
        serve log head world.conts (world.requestOf client limit filesV1) = (.page ops, _))
      rw [← hbase] at hops
      by_cases hdrop : id ∈ (deltaOrder log head c.base).drop
          (startOf world.conts head (world.clients client).after).1.2
      · apply Client.has_of_page
        rw [hops]
        by_contra hno
        apply hpassed
        rw [← take_append_drop limit ((deltaOrder log head c.base).drop _), mem_append] at hdrop
        have hrest := hdrop.resolve_left hno
        rw [drop_drop] at hrest
        rw [hend]
        show id ∈ (deltaOrder log head c.base).drop
          (min ((startOf world.conts head (world.clients client).after).1.2 + limit)
            (deltaOrder log head c.base).length)
        rcases Nat.le_total (deltaOrder log head c.base).length
          ((startOf world.conts head (world.clients client).after).1.2 + limit) with hle | hle
        · rw [drop_eq_nil_of_le hle] at hrest
          cases hrest
        · have hmin : min ((startOf world.conts head (world.clients client).after).1.2 + limit)
              (deltaOrder log head c.base).length =
              (startOf world.conts head (world.clients client).after).1.2 + limit := by omega
          rw [hmin]
          exact hrest
      · refine Client.Has.receive ?_ _
        apply has_of_passedOver hac (hkept client).1 hmeet hid
        rw [hbase] at hdrop
        exact hdrop

end Lossless

/-! ## One client resumed at another's note -/

/-- Two lines on one root, and their merge. -/
def forkLog : OpLog := OpLog.ofRecords
  [⟨"g", .v1, .new (.addType "f" "s1" none) [], .create "f" "s1"⟩,
    ⟨"a", .v1, .new (.addType "h" "s2" none) ["g"], .create "h" "s2"⟩,
    ⟨"b", .v1, .new (.addType "k" "s3" none) ["g"], .create "k" "s3"⟩,
    ⟨"m", .v1, .new (.merge 0) ["a", "b"], .merge ∅⟩]

/-- One client pulls from nothing, the other holds `a` and its ancestry. -/
def forkWorld : World Bool where
  conts := []
  clients := fun i => if i then ⟨["a", "g"], [], some "a", false⟩ else ⟨[], [], none, false⟩

/-- The first client's page of three ends on `a`, and the second one pulls twice. -/
def forkActions : List (Action Bool) :=
  [.request false 3 true, .request true 10 true, .request true 10 true]

theorem forkLog_acyclic : forkLog.Acyclic := OpLog.acyclic_ofRecords (by decide) (by decide)

theorem forkWorld_start : Start forkLog forkWorld where
  conts := rfl
  fresh := by decide
  cutoff := by
    intro i after hafter id hreach
    cases i with
    | false => cases hafter
    | true =>
      obtain rfl := some.inj hafter
      show id ∈ ["a", "g"]
      have ha : forkLog.parentsOf "a" = some ["g"] := by decide
      have hg : forkLog.parentsOf "g" = some [] := by decide
      induction hreach with
      | refl => decide
      | tail _ hedge ih =>
        simp only [mem_cons, not_mem_nil, or_false] at ih
        rcases ih with rfl | rfl
        · rw [edge_iff_of_some ha] at hedge
          exact mem_cons_of_mem _ hedge
        · rw [edge_iff_of_some hg] at hedge
          cases hedge

/-- **The second client is resumed at the first one's note**, and ends its pull without `b`. -/
theorem resumedElsewhere_loses : ¬ ∀ (log : OpLog) (head : OpId) (world : World Bool) (actions : List (Action Bool)),
      log.Acyclic → Start log world → (∀ action ∈ actions, action.positive) →
        Lossless log head (run log head world actions) := by
  intro h
  have hpos : ∀ action ∈ forkActions, action.positive := by
    simp [forkActions, Action.positive]
  have hm : forkLog.parentsOf "m" = some ["a", "b"] := by decide
  have hreach : forkLog.Reach "m" "b" := .single ((edge_iff_of_some hm).mpr (by decide))
  have hb := h forkLog "m" forkWorld forkActions forkLog_acyclic forkWorld_start hpos true
    (by decide) "b" ⟨hreach, by decide⟩
  have hlost : "b" ∉ ((run forkLog "m" forkWorld forkActions).clients true).held ∧
      "b" ∉ ((run forkLog "m" forkWorld forkActions).clients true).received := by decide
  exact hb.elim hlost.1 hlost.2

/-- The first client alone pulls everything, in two pages and an empty one. -/
theorem legacyPull_lossless_alone : Lossless forkLog "m"
      (run forkLog "m" forkWorld [.request false 3 true, .request false 3 true, .request false 3 true]) := by
  have hpos : ∀ action ∈ [Action.request false 3 true, .request false 3 true,
      .request false 3 true], action.positive := by simp [Action.positive]
  refine legacyPull_lossless forkLog_acyclic forkWorld_start _ hpos
    (allMeet_of_alone forkLog_acyclic (i := false) _ forkWorld_start.kept ?_ hpos (by simp))
  intro c hc
  cases hc

end LexLang.Api
