/-
# LexLang.Api.AttestationsSince — pulling attestations

`GET /v1/attestations/since?after-op=X&limit=n` (`attestations_since_handler` in
`lex-api/src/handlers.rs`) against a log that grows, and a client that puts what it is sent in the
order it is sent. A page is what is not on an operation in `X`'s ancestry, by timestamp.

A pull loses what came late on an operation it cuts off, and turns around what the timestamps turn
around. `pulls_faithful_iff` says which pulls do not.
-/
import LexLang.Attest.Log
import LexLang.Vcs.ReplayOrder

namespace LexLang.Api

open LexLang.Vcs (OpLog OpId StageId OperationRecord)
open LexLang.Attest
open Bool List

/-! ## One request -/

/-- A request for attestations. -/
structure AttestationsRequest where
  afterOp : Option OpId
  limit : Option Nat

/-- The operations whose attestations a request does not ask for: `after-op` and its ancestors, as far
as they are known. -/
def excludedOps (ops : OpLog) (afterOp : Option OpId) : List OpId :=
  match afterOp with
  | none => []
  | some cutoff => (ops.walkBack cutoff none).map OperationRecord.opId

/-- An attestation is asked for; one on no operation always is. -/
def isAsked (exclude : List OpId) (a : Attestation) : Bool :=
  match a.opId with
  | some opId => !exclude.contains opId
  | none => true

/-- By the writer's timestamp, and by id at one timestamp. -/
def timestampLe (a b : Attestation) : Bool :=
  decide (a.timestamp < b.timestamp) ||
    (decide (a.timestamp = b.timestamp) && decide (a.attestationId ≤ b.attestationId))

/-- **Serve one request.** -/
def attestationsSince (ops : OpLog) (log : AttestationLog) (request : AttestationsRequest) :
    List Attestation :=
  let exclude := excludedOps ops request.afterOp
  let filtered := log.listAll.filter (isAsked exclude)
  let sorted := filtered.mergeSort timestampLe
  match request.limit with
  | some n => sorted.take n
  | none => sorted

/-! ## A server, and a client that pulls -/

/-- The operations of the server and its head; what was put at the server, and what was put at the
client; which of these the client created, and the head it holds. -/
structure Peers where
  ops : OpLog
  serverHead : Option OpId
  served : List Attestation
  held : List Attestation
  own : List AttestationId
  clientHead : Option OpId

/-- What can happen next. -/
inductive PullAction
  /-- An attestation is put at the server, on any operation or none. -/
  | serve (a : Attestation)
  | push (ops : OpLog) (head : Option OpId)
  /-- The client puts an attestation of its own. -/
  | create (a : Attestation)
  | adopt (head : OpId)
  | pull (request : AttestationsRequest)

namespace Peers

def empty (ops : OpLog) (serverHead clientHead : Option OpId) : Peers :=
  ⟨ops, serverHead, [], [], [], clientHead⟩

/-- The log of the server, … -/
def server (peers : Peers) : AttestationLog := AttestationLog.puts peers.served

/-- … and of the client. -/
def client (peers : Peers) : AttestationLog := AttestationLog.puts peers.held

/-- What the server sends. -/
def page (peers : Peers) (request : AttestationsRequest) : List Attestation :=
  attestationsSince peers.ops peers.server request

/-- **One step.** -/
def step (peers : Peers) : PullAction → Peers
  | .serve a => { peers with served := peers.served ++ [a] }
  | .push ops head => { peers with ops, serverHead := head }
  | .create a =>
    { peers with held := peers.held ++ [a], own := peers.own ++ [a.attestationId] }
  | .adopt head => { peers with clientHead := some head }
  | .pull request => { peers with held := peers.held ++ peers.page request }

/-- **A run**, in any order of steps. -/
def run (peers : Peers) (actions : List PullAction) : Peers := actions.foldl step peers

/-- A step that can happen: an id stands for one payload, and the client asks with no operation or with
the last head it holds. -/
def Can (peers : Peers) : PullAction → Prop
  | .serve a => Identified (peers.served ++ peers.held ++ [a])
  | .create a => Identified (peers.served ++ peers.held ++ [a])
  | .pull request => request.afterOp = none ∨ request.afterOp = peers.clientHead
  | .push _ _ => True
  | .adopt _ => True

/-- The client has an attestation. -/
def Has (peers : Peers) (a : Attestation) : Prop :=
  a.attestationId ∈ peers.held.map Attestation.attestationId

/-- **A pull is lossless**: if the client asked at the server's head, and was sent fewer than it asked
for, it has what the server has. -/
def Lossless (peers : Peers) (request : AttestationsRequest) : Prop :=
  request.afterOp = peers.serverHead →
    (∀ n, request.limit = some n → (peers.page request).length < n) →
      ∀ a ∈ firsts peers.served, (peers.step (.pull request)).Has a

/-- **The client's order is the server's**: of what the client did not create, on each stage. -/
def InOrder (peers : Peers) : Prop :=
  ∀ (stage : StageId) (listed : List Attestation), listed.Perm (peers.client.listForStage stage) →
    ((peers.client.sortByArrival listed).filter fun a =>
      decide (a.attestationId ∉ peers.own)).Pairwise peers.server.Before

/-- What a request asks for. -/
def asked (peers : Peers) (request : AttestationsRequest) : List Attestation :=
  (firsts peers.served).filter (isAsked (excludedOps peers.ops request.afterOp))

/-- A request is answered with an attestation: fewer than it allows are asked for and come before it by
timestamp. -/
def Sends (peers : Peers) (request : AttestationsRequest) (a : Attestation) : Prop :=
  a ∈ peers.asked request ∧ ∀ n, request.limit = some n →
    ((peers.asked request).filter fun b =>
      timestampLe b a && decide (b.attestationId ≠ a.attestationId)).length < n

/-- **What a pull must meet.** If it is at the server's head and not cut short, it asks for everything
the client lacks; and of two attestations on one stage, the one that came first is not sent when the
client has been given the other, or is given it before by timestamp. -/
structure Meets (peers : Peers) (request : AttestationsRequest) : Prop where
  asks : request.afterOp = peers.serverHead →
    (∀ n, request.limit = some n → (peers.asked request).length < n) →
      ∀ a ∈ firsts peers.served, ¬ peers.Has a → a ∈ peers.asked request
  notLate : ∀ a b, peers.Sends request a → ¬ peers.Has a → b ∈ firsts peers.served →
    a.stageId = b.stageId → peers.server.Before a b → peers.Has b → b.attestationId ∈ peers.own
  notTurned : ∀ a b, peers.Sends request a → ¬ peers.Has a → peers.Sends request b → ¬ peers.Has b →
    a.stageId = b.stageId → peers.server.Before a b → timestampLe a b = true

end Peers

/-! ## A page -/

theorem timestampLe_total (a b : Attestation) : (timestampLe a b || timestampLe b a) = true := by
  unfold timestampLe
  simp only [or_eq_true, and_eq_true, decide_eq_true_eq, AttestationLog.lex_iff]
  exact le_total _ _

theorem timestampLe_trans (a b c : Attestation) (hab : timestampLe a b = true)
    (hbc : timestampLe b c = true) : timestampLe a c = true := by
  unfold timestampLe at *
  simp only [or_eq_true, and_eq_true, decide_eq_true_eq, AttestationLog.lex_iff] at *
  exact le_trans hab hbc

variable {a : Attestation}

theorem timestampLe_antisymm {b : Attestation} (hab : timestampLe a b = true)
    (hba : timestampLe b a = true) : a.attestationId = b.attestationId := by
  unfold timestampLe at *
  simp only [or_eq_true, and_eq_true, decide_eq_true_eq, AttestationLog.lex_iff] at *
  exact (Prod.mk.inj (toLex.injective (le_antisymm hab hba))).2

/-- Of a strictly ordered list, the first ones are those that have few before them. -/
theorem mem_take_iff_of_pairwise {α : Type} {lt : α → α → Bool} {l : List α} {a : α}
    (hsorted : l.Pairwise fun x y => lt x y = true ∧ lt y x = false) (hirrefl : lt a a = false)
    (ha : a ∈ l) (n : Nat) : a ∈ l.take n ↔ (l.filter fun b => lt b a).length < n := by
  induction l generalizing n with
  | nil => cases ha
  | cons b l ih =>
    rw [pairwise_cons] at hsorted
    obtain ⟨hb, hl⟩ := hsorted
    rcases mem_cons.mp ha with rfl | hin
    · have hnone : (l.filter fun x => lt x a) = [] :=
        filter_eq_nil_iff.mpr fun x hx => by simp [(hb x hx).2]
      rw [filter_cons, if_neg (by simp [hirrefl]), hnone]
      cases n with
      | zero => simp
      | succ n => simp
    · have hlt := (hb a hin).1
      have hne : a ≠ b := by
        rintro rfl
        rw [hirrefl] at hlt
        cases hlt
      rw [filter_cons, if_pos hlt, length_cons]
      cases n with
      | zero => simp
      | succ n =>
        rw [take_succ_cons, mem_cons, or_iff_right hne, ih hl hin]
        omega

namespace Peers

variable {peers : Peers} {request : AttestationsRequest}

theorem sorted_perm (peers : Peers) (request : AttestationsRequest) :
    ((peers.server.listAll.filter (isAsked (excludedOps peers.ops request.afterOp))).mergeSort
      timestampLe).Perm (peers.asked request) :=
  (mergeSort_perm _ _).trans
    ((AttestationLog.follows_puts peers.served).listAll_perm.filter _)

theorem nodup_ids_asked (peers : Peers) (request : AttestationsRequest) :
    ((peers.asked request).map Attestation.attestationId).Nodup :=
  (nodup_ids_firsts peers.served).sublist (filter_sublist.map _)

/-- **A page**: by timestamp, and what is sent. -/
theorem page_spec (peers : Peers) (request : AttestationsRequest) :
    (peers.page request).Pairwise (fun a b => timestampLe a b = true) ∧
    ((peers.page request).map Attestation.attestationId).Nodup ∧
    (∀ a, a ∈ peers.page request ↔ peers.Sends request a) ∧
    (peers.page request).length = match request.limit with
      | some n => min n (peers.asked request).length
      | none => (peers.asked request).length := by
  have hperm := peers.sorted_perm request
  have hsorted := pairwise_mergeSort timestampLe_trans timestampLe_total
    (peers.server.listAll.filter (isAsked (excludedOps peers.ops request.afterOp)))
  have hpage : peers.page request = match request.limit with
      | some n => ((peers.server.listAll.filter
          (isAsked (excludedOps peers.ops request.afterOp))).mergeSort timestampLe).take n
      | none => (peers.server.listAll.filter
          (isAsked (excludedOps peers.ops request.afterOp))).mergeSort timestampLe := rfl
  generalize (peers.server.listAll.filter
    (isAsked (excludedOps peers.ops request.afterOp))).mergeSort timestampLe = sorted
      at hperm hsorted hpage
  have hnodup : (sorted.map Attestation.attestationId).Nodup :=
    (hperm.map Attestation.attestationId).nodup_iff.mpr (peers.nodup_ids_asked request)
  cases hlimit : request.limit with
  | none =>
    rw [hlimit] at hpage
    refine ⟨hpage ▸ hsorted, hpage ▸ hnodup, fun a => ?_, by rw [hpage]; exact hperm.length_eq⟩
    rw [hpage, Sends, hperm.mem_iff, hlimit]
    simp
  | some n =>
    rw [hlimit] at hpage
    have hpage' : peers.page request = sorted.take n := hpage
    have hstrict : sorted.Pairwise fun x y =>
        (timestampLe x y && decide (x.attestationId ≠ y.attestationId)) = true ∧
          (timestampLe y x && decide (y.attestationId ≠ x.attestationId)) = false := by
      rw [Nodup, pairwise_map] at hnodup
      refine (hsorted.and hnodup).imp fun {x y} h => ?_
      obtain ⟨hle, hne⟩ := h
      refine ⟨by simp [hle, hne], ?_⟩
      by_contra hother
      rw [not_eq_false, and_eq_true] at hother
      exact hne (timestampLe_antisymm hle hother.1)
    refine ⟨?_, ?_, fun a => ?_, ?_⟩
    · rw [hpage']
      exact List.Pairwise.sublist (take_sublist n sorted) hsorted
    · rw [hpage', map_take]
      exact hnodup.sublist (take_sublist n _)
    · rw [hpage', Sends, hlimit]
      by_cases ha : a ∈ sorted
      · rw [mem_take_iff_of_pairwise hstrict (by simp) ha, and_iff_right (hperm.mem_iff.mp ha),
          (hperm.filter _).length_eq]
        simp
      · refine iff_of_false (fun h => ha (mem_of_mem_take h)) fun h => ha ?_
        exact hperm.mem_iff.mpr h.1
    · rw [hpage', length_take, hperm.length_eq]

theorem page_short_iff (peers : Peers) (request : AttestationsRequest) :
    (∀ n, request.limit = some n → (peers.page request).length < n) ↔
      ∀ n, request.limit = some n → (peers.asked request).length < n := by
  have hlength := (peers.page_spec request).2.2.2
  refine forall_congr' fun n => forall_congr' fun hlimit => ?_
  rw [hlimit] at hlength
  have hmin : (peers.page request).length = min n (peers.asked request).length := hlength
  omega

theorem eq_of_attestationId_eq {b : Attestation} (ha : a ∈ firsts peers.served)
    (hb : b ∈ firsts peers.served) (hid : a.attestationId = b.attestationId) : a = b :=
  inj_on_of_nodup_map (nodup_ids_firsts peers.served) ha hb hid

theorem Sends.mem_firsts (h : peers.Sends request a) : a ∈ firsts peers.served :=
  (mem_filter.mp h.1).1

theorem sends_of_asked (hshort : ∀ n, request.limit = some n → (peers.asked request).length < n)
    (ha : a ∈ peers.asked request) : peers.Sends request a :=
  ⟨ha, fun n hlimit => lt_of_le_of_lt (length_filter_le _ _) (hshort n hlimit)⟩

/-! ## What holds along a run -/

/-- The ids are the payloads', the client has what it created, and the rest is what the server sent. -/
structure Kept (peers : Peers) : Prop where
  identified : Identified (peers.served ++ peers.held)
  owned : ∀ id ∈ peers.own, id ∈ peers.held.map Attestation.attestationId
  foreign : ∀ a ∈ peers.held, a.attestationId ∈ peers.own ∨ a ∈ firsts peers.served

/-- An order that the client's log must keep. -/
def Agrees (peers : Peers) (a b : Attestation) : Prop :=
  a.attestationId ∉ peers.own → b.attestationId ∉ peers.own → a.stageId = b.stageId →
    peers.server.Before a b

theorem Kept.inOrder_iff (h : peers.Kept) : peers.InOrder ↔ (firsts peers.held).Pairwise peers.Agrees := by
  have hidentified : Identified peers.held := fun a ha b hb =>
    h.identified a (mem_append_right _ ha) b (mem_append_right _ hb)
  have hfollows := AttestationLog.follows_puts peers.held
  have hstage : ∀ stage, (((firsts peers.held).filter fun a => decide (a.stageId = stage)).filter
      fun a => decide (a.attestationId ∉ peers.own)).Pairwise peers.server.Before ↔
        (firsts peers.held).Pairwise fun a b => a.attestationId ∉ peers.own →
          b.attestationId ∉ peers.own → a.stageId = stage → b.stageId = stage →
            peers.server.Before a b := by
    intro stage
    rw [pairwise_filter, pairwise_filter]
    simp only [decide_eq_true_eq]
    constructor
    · exact List.Pairwise.imp fun hab ha hb hsa hsb => hab hsa hsb ha hb
    · exact List.Pairwise.imp fun hab hsa hsb ha hb => hab ha hb hsa hsb
  constructor
  · intro hord
    rw [pairwise_iff_forall_sublist]
    intro a b hab ha hb hsame
    have hof := hord a.stageId _ (Perm.refl _)
    rw [client, hfollows.sortByArrival_eq (hfollows.listForStage_perm hidentified a.stageId),
      hstage, pairwise_iff_forall_sublist] at hof
    exact hof hab ha hb rfl hsame.symm
  · intro hpairwise stage listed hlisted
    rw [client, hfollows.sortByArrival_eq (hlisted.trans (hfollows.listForStage_perm hidentified stage)), hstage]
    exact hpairwise.imp fun hab ha hb hsa hsb => hab ha hb (hsa.trans hsb.symm)

theorem kept_empty (ops : OpLog) (serverHead clientHead : Option OpId) : (empty ops serverHead clientHead).Kept where
  identified := fun _ ha => absurd ha not_mem_nil
  owned := fun _ hid => absurd hid not_mem_nil
  foreign := fun _ ha => absurd ha not_mem_nil

/-- What is new to the client in a page. -/
def news (peers : Peers) (request : AttestationsRequest) : List Attestation :=
  (peers.page request).filter fun a => decide (a.attestationId ∉ peers.held.map Attestation.attestationId)

theorem firsts_pull (peers : Peers) (request : AttestationsRequest) :
    firsts (peers.step (.pull request)).held = firsts peers.held ++ peers.news request :=
  firsts_append (peers.page_spec request).2.1

/-- **Every step keeps it.** -/
theorem Kept.step (h : peers.Kept) {action : PullAction} (hcan : peers.Can action) : (peers.step action).Kept := by
  cases action with
  | serve a =>
    refine ⟨fun x hx y hy => hcan x ?_ y ?_, h.owned, fun x hx => ?_⟩
    · simp only [Peers.step, mem_append] at hx ⊢
      tauto
    · simp only [Peers.step, mem_append] at hy ⊢
      tauto
    · refine (h.foreign x hx).imp_right fun hin => ?_
      show x ∈ firsts (peers.served ++ [a])
      rw [firsts_append_singleton]
      split
      · exact hin
      · exact mem_append_left _ hin
  | push ops head => exact ⟨h.identified, h.owned, h.foreign⟩
  | create a =>
    refine ⟨fun x hx y hy => hcan x ?_ y ?_, fun id hid => ?_, fun x hx => ?_⟩
    · simp only [Peers.step, mem_append] at hx ⊢
      tauto
    · simp only [Peers.step, mem_append] at hy ⊢
      tauto
    · show id ∈ (peers.held ++ [a]).map Attestation.attestationId
      rw [map_append, mem_append]
      exact (mem_append.mp hid).imp_left (h.owned id)
    · rcases mem_append.mp hx with hx | hx
      · exact (h.foreign x hx).imp_left fun hin => mem_append_left _ hin
      · rw [mem_singleton.mp hx]
        exact .inl (mem_append_right _ (mem_singleton.mpr rfl))
  | adopt head => exact ⟨h.identified, h.owned, h.foreign⟩
  | pull request =>
    have hsent : ∀ a ∈ peers.page request, a ∈ firsts peers.served := fun a ha =>
      (((peers.page_spec request).2.2.1 a).mp ha).mem_firsts
    have hin : ∀ x ∈ peers.served ++ (peers.held ++ peers.page request),
        x ∈ peers.served ++ peers.held := by
      intro x hx
      rcases mem_append.mp hx with hx | hx
      · exact mem_append_left _ hx
      · rcases mem_append.mp hx with hx | hx
        · exact mem_append_right _ hx
        · exact mem_append_left _ ((firsts_sublist peers.served).subset (hsent x hx))
    refine ⟨fun x hx y hy => h.identified x (hin x hx) y (hin y hy), fun id hid => ?_,
      fun x hx => ?_⟩
    · show id ∈ (peers.held ++ peers.page request).map Attestation.attestationId
      rw [map_append]
      exact mem_append_left _ (h.owned id hid)
    · rcases mem_append.mp hx with hx | hx
      · exact h.foreign x hx
      · exact .inr (hsent x hx)

/-- **A pull is lossless exactly where it asks for what the client lacks.** -/
theorem lossless_iff (peers : Peers) (request : AttestationsRequest) :
    peers.Lossless request ↔ (request.afterOp = peers.serverHead →
      (∀ n, request.limit = some n → (peers.asked request).length < n) →
        ∀ a ∈ firsts peers.served, ¬ peers.Has a → a ∈ peers.asked request) := by
  refine forall_congr' fun _ => ?_
  rw [page_short_iff]
  refine forall_congr' fun hshort => forall_congr' fun a => forall_congr' fun ha => ?_
  have hafter : (peers.step (.pull request)).Has a ↔ peers.Has a ∨
      a.attestationId ∈ (peers.page request).map Attestation.attestationId := by
    unfold Has
    rw [Peers.step, map_append, mem_append]
  rw [hafter]
  constructor
  · intro h hlacks
    obtain ⟨b, hb, hid⟩ := mem_map.mp (h.resolve_left hlacks)
    have hsent := ((peers.page_spec request).2.2.1 b).mp hb
    rw [← eq_of_attestationId_eq hsent.mem_firsts ha hid]
    exact hsent.1
  · intro h
    by_cases hhas : peers.Has a
    · exact .inl hhas
    · right
      have hsent := sends_of_asked hshort (h hhas)
      exact mem_map_of_mem (((peers.page_spec request).2.2.1 a).mpr hsent)

theorem mem_news_iff : a ∈ peers.news request ↔ peers.Sends request a ∧ ¬ peers.Has a := by
  rw [news, mem_filter, (peers.page_spec request).2.2.1, decide_eq_true_eq]
  rfl

/-- What the client has and did not create is what the server has under that id. -/
theorem Kept.mem_served (h : peers.Kept) (ha : a ∈ firsts peers.held)
    (hown : a.attestationId ∉ peers.own) : a ∈ firsts peers.served :=
  (h.foreign a ((firsts_sublist peers.held).subset ha)).resolve_left hown

/-- What a pull adds comes after what the client has, where none of it is late. -/
theorem Kept.after_held_iff (h : peers.Kept) (request : AttestationsRequest) :
    (∀ x ∈ firsts peers.held, ∀ y ∈ peers.news request, peers.Agrees x y) ↔
      ∀ a b, peers.Sends request a → ¬ peers.Has a → b ∈ firsts peers.served →
        a.stageId = b.stageId → peers.server.Before a b → peers.Has b → b.attestationId ∈ peers.own := by
  constructor
  · intro hafter a b hsent hlacks hb hstage hbefore hhas
    by_contra hown
    obtain ⟨x, hx, hid⟩ := mem_map.mp (mem_ids_firsts.mpr hhas)
    have hxb : x = b := eq_of_attestationId_eq (h.mem_served hx (hid ▸ hown)) hb hid
    subst hxb
    have hforeign : a.attestationId ∉ peers.own := fun hin => hlacks (h.owned _ hin)
    have hagrees := hafter x hx a (mem_news_iff.mpr ⟨hsent, hlacks⟩) hown hforeign hstage.symm
    exact hagrees.2 hbefore.1
  · intro hnotLate x hx y hy hxown hyown hstage
    obtain ⟨hsent, hlacks⟩ := mem_news_iff.mp hy
    have hhas : peers.Has x := mem_ids_firsts.mp (mem_map_of_mem hx)
    have hne : x.attestationId ≠ y.attestationId := fun hid => hlacks (by
      unfold Has
      rw [← hid]
      exact hhas)
    rcases peers.server.before_or_before hne with hxy | hyx
    · exact hxy
    · exact absurd (hnotLate y x hsent hlacks (h.mem_served hx hxown) hstage.symm hyx hhas) hxown

/-- What a pull adds is in order, where the timestamps turn none of it around. -/
theorem Kept.new_iff (h : peers.Kept) (request : AttestationsRequest) : (peers.news request).Pairwise peers.Agrees ↔
      ∀ a b, peers.Sends request a → ¬ peers.Has a → peers.Sends request b → ¬ peers.Has b →
        a.stageId = b.stageId → peers.server.Before a b → timestampLe a b = true := by
  obtain ⟨hsorted, hnodup, -, -⟩ := peers.page_spec request
  have hpage : (peers.news request).Pairwise fun x y =>
      timestampLe x y = true ∧ x.attestationId ≠ y.attestationId := by
    rw [Nodup, pairwise_map] at hnodup
    exact (hsorted.and hnodup).filter _
  have hmem : ∀ {a : Attestation}, a ∈ peers.news request ↔ peers.Sends request a ∧ ¬ peers.Has a := mem_news_iff
  generalize peers.news request = added at hpage hmem ⊢
  constructor
  · intro hagrees a b hsa hla hsb hlb hstage hbefore
    have ha := hmem.mpr ⟨hsa, hla⟩
    have hb := hmem.mpr ⟨hsb, hlb⟩
    have hforeign : ∀ x, ¬ peers.Has x → x.attestationId ∉ peers.own :=
      fun x hlacks hin => hlacks (h.owned _ hin)
    obtain ⟨i, hi, rfl⟩ := getElem_of_mem ha
    obtain ⟨j, hj, rfl⟩ := getElem_of_mem hb
    rcases lt_trichotomy i j with hij | rfl | hji
    · exact (pairwise_iff_getElem.mp hpage i j hi hj hij).1
    · exact absurd hbefore.1 hbefore.2
    · have hba := pairwise_iff_getElem.mp hagrees j i hj hi hji (hforeign _ hlb)
        (hforeign _ hla) hstage.symm
      exact absurd hbefore.1 hba.2
  · intro hnotTurned
    refine hpage.imp_of_mem fun {x y} hx hy hle _ _ hstage => ?_
    obtain ⟨hsx, hlx⟩ := hmem.mp hx
    obtain ⟨hsy, hly⟩ := hmem.mp hy
    rcases peers.server.before_or_before hle.2 with hxy | hyx
    · exact hxy
    · have hyx' := hnotTurned y x hsy hly hsx hlx hstage.symm hyx
      exact absurd (timestampLe_antisymm hle.1 hyx') hle.2

/-- **A pull is lossless and keeps the order exactly where it meets the condition.** -/
theorem Kept.pull_iff (h : peers.Kept) (hcan : peers.Can (.pull request)) (hord : peers.InOrder) :
    (peers.Lossless request ∧ (peers.step (.pull request)).InOrder) ↔ peers.Meets request := by
  have hafter : (peers.step (.pull request)).InOrder ↔
      (firsts (peers.step (.pull request)).held).Pairwise peers.Agrees := (h.step hcan).inOrder_iff
  rw [hafter, firsts_pull, pairwise_append, h.new_iff, h.after_held_iff, lossless_iff]
  constructor
  · rintro ⟨hasks, -, hnotTurned, hnotLate⟩
    exact ⟨hasks, hnotLate, hnotTurned⟩
  · rintro ⟨hasks, hnotLate, hnotTurned⟩
    exact ⟨hasks, h.inOrder_iff.mp hord, hnotTurned, hnotLate⟩

/-- **Every other step keeps the order.** -/
theorem Kept.inOrder_step (h : peers.Kept) {action : PullAction} (hcan : peers.Can action)
    (hother : ∀ request, action ≠ .pull request) (hord : peers.InOrder) : (peers.step action).InOrder := by
  have hheld := h.inOrder_iff.mp hord
  rw [(h.step hcan).inOrder_iff]
  cases action with
  | serve a =>
    refine hheld.imp_of_mem fun {x y} hx hy hxy hxown hyown hstage => ?_
    have hids : ∀ z ∈ firsts peers.held, z.attestationId ∉ peers.own →
        z.attestationId ∈ peers.served.map Attestation.attestationId := fun z hz hown =>
      mem_map_of_mem ((firsts_sublist peers.served).subset (h.mem_served hz hown))
    exact (AttestationLog.before_puts_append_iff (hids x hx hxown) (hids y hy hyown)).mpr
      (hxy hxown hyown hstage)
  | push ops head => exact hheld
  | create a =>
    -- what is created is not compared, and takes an id out of what is
    have hsame : (firsts peers.held).Pairwise (peers.step (.create a)).Agrees :=
      hheld.imp fun hxy hxown hyown => hxy (fun hin => hxown (mem_append_left _ hin))
        fun hin => hyown (mem_append_left _ hin)
    show (firsts (peers.held ++ [a])).Pairwise (peers.step (.create a)).Agrees
    rw [firsts_append_singleton]
    split
    · exact hsame
    · rw [pairwise_append]
      refine ⟨hsame, pairwise_singleton _ _, fun x _ y hy _ hyown => ?_⟩
      rw [mem_singleton.mp hy] at hyown
      exact absurd (mem_append_right _ (mem_singleton.mpr rfl)) hyown
  | adopt head => exact hheld
  | pull request => exact absurd rfl (hother request)

end Peers

/-! ## Whole runs -/

/-- A run whose steps can happen, from a server and a client without attestations. -/
structure PullHistory where
  ops : OpLog
  serverHead : Option OpId
  clientHead : Option OpId
  actions : List PullAction
  possible : ∀ before action after, actions = before ++ action :: after →
    ((Peers.empty ops serverHead clientHead).run before).Can action

namespace PullHistory

variable (history : PullHistory)

/-- The peers after some actions of the run. -/
def after (actions : List PullAction) : Peers :=
  (Peers.empty history.ops history.serverHead history.clientHead).run actions

theorem after_append_singleton (actions : List PullAction) (action : PullAction) :
    history.after (actions ++ [action]) = (history.after actions).step action := by
  unfold after Peers.run
  rw [foldl_append, foldl_cons, foldl_nil]

theorem kept_after {before rest : List PullAction} (h : history.actions = before ++ rest) :
    (history.after before).Kept := by
  induction before using reverseRecOn generalizing rest with
  | nil => exact Peers.kept_empty _ _ _
  | append_singleton before action ih =>
    rw [after_append_singleton]
    rw [append_assoc] at h
    exact (ih h).step (history.possible before action rest h)

/-- **Pulls are lossless and keep the order along a run exactly where each of them meets the
condition.** -/
theorem pulls_faithful_iff : ((∀ before request rest, history.actions = before ++ .pull request :: rest →
        (history.after before).Lossless request) ∧
      ∀ before rest, history.actions = before ++ rest → (history.after before).InOrder) ↔
    ∀ before request rest, history.actions = before ++ .pull request :: rest →
      (history.after before).Meets request := by
  constructor
  · rintro ⟨hlossless, hord⟩ before request rest heq
    have hkept := history.kept_after heq
    have hafter := hord (before ++ [PullAction.pull request]) rest (by rw [heq, append_assoc]; rfl)
    rw [after_append_singleton] at hafter
    exact (hkept.pull_iff (history.possible before _ rest heq) (hord before _ heq)).mp
      ⟨hlossless before request rest heq, hafter⟩
  · intro hmeets
    have hord : ∀ before rest, history.actions = before ++ rest →
        (history.after before).InOrder := by
      intro before
      induction before using reverseRecOn with
      | nil =>
        intro rest _
        have hempty : (firsts ([] : List Attestation)).Pairwise
          (history.after []).Agrees := List.Pairwise.nil
        exact (Peers.kept_empty _ _ _).inOrder_iff.mpr hempty
      | append_singleton before action ih =>
        intro rest heq
        rw [append_assoc] at heq
        have hkept := history.kept_after heq
        have hcan := history.possible before action rest heq
        have hbefore := ih _ heq
        rw [after_append_singleton]
        by_cases hpull : ∃ request, action = .pull request
        · obtain ⟨request, rfl⟩ := hpull
          exact ((hkept.pull_iff hcan hbefore).mpr (hmeets before request rest heq)).2
        · exact hkept.inOrder_step hcan (fun request h => hpull ⟨request, h⟩) hbefore
    refine ⟨fun before request rest heq => ?_, hord⟩
    have hkept := history.kept_after heq
    exact ((hkept.pull_iff (history.possible before _ rest heq) (hord before _ heq)).mpr
      (hmeets before request rest heq)).1

end PullHistory

/-! ## A late attestation, and a turned one -/

/-- One operation, that adds nothing. -/
def anOperation : OperationRecord :=
  ⟨"op", .v1, ⟨.addImport "in.lex" "std.io" none, [], none⟩, .importOnly⟩

/-- A verdict on a stage, on an operation or none, at a time. -/
def verdictOn (opId : Option OpId) (verdict : ReviewVerdict) (id : AttestationId) (timestamp : Nat) :
    Attestation :=
  ⟨id, ⟨"stage", opId, none, .review "alice" verdict none, .passed, ⟨"lex", "1", none⟩⟩, timestamp⟩

/-- A verdict on an operation the client has pulled, and a request from there. -/
def lateVerdict : PullHistory where
  ops := OpLog.empty.put anOperation
  serverHead := some "op"
  clientHead := some "op"
  actions := [.serve (verdictOn (some "op") .reject "late" 1), .pull ⟨some "op", some 10⟩]
  possible := by
    intro before action rest heq
    rcases before with _ | ⟨first, _ | ⟨second, before⟩⟩
    · obtain ⟨rfl, -⟩ := List.cons.inj heq
      simp [Peers.run, Peers.Can, Peers.empty, Identified]
    · obtain ⟨hfirst, htail⟩ := List.cons.inj heq
      obtain ⟨rfl, -⟩ := List.cons.inj htail
      rw [← hfirst]
      exact .inr rfl
    · simp at heq

/-- **It is lost**: the client asked at the head and was sent less than it asked for, and does not have
it. -/
theorem late_verdict_is_lost : ¬ (lateVerdict.after [.serve (verdictOn (some "op") .reject "late" 1)]).Lossless
      ⟨some "op", some 10⟩ := by
  let late := verdictOn (some "op") .reject "late" 1
  let peers := lateVerdict.after [.serve late]
  have hserved : firsts peers.served = [late] := by
    simp [peers, PullHistory.after, Peers.run, Peers.step, Peers.empty, firsts]
  have hexcluded : "op" ∈ excludedOps peers.ops (some "op") := by
    have hget : (OpLog.empty.put anOperation).get "op" = some anOperation := by
      rfl
    exact mem_map.mpr ⟨anOperation, OpLog.mem_walkBack_iff.mpr ⟨hget, .refl⟩, rfl⟩
  have hasked : peers.asked ⟨some "op", some 10⟩ = [] := by
    unfold Peers.asked
    rw [filter_eq_nil_iff]
    intro a ha
    rw [mem_singleton.mp ha]
    simp [late, verdictOn, isAsked, hexcluded]
  intro hlossless
  have hall := (peers.lossless_iff ⟨some "op", some 10⟩).mp hlossless rfl
  refine absurd (hall ?_ late (mem_singleton.mpr rfl) ?_) not_mem_nil
  · intro n hn
    obtain rfl := Option.some.inj hn
    decide
  · exact not_mem_nil

end LexLang.Api
