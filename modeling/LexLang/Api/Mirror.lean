/-
# LexLang.Api.Mirror — what one server serves, another takes in

A mirror pulls the delta of a head (`ops_since_http.rs`) and pushes it on (`ops_batch_handler`).
-/
import LexLang.Api.OpsSince
import LexLang.Api.PushedHistory
import LexLang.Vcs.DirWalk

namespace LexLang.Api

open LexLang.Vcs LexLang.Graph
open List Option

variable {digest : Digest} {log peer : OpLog} {head : OpId} {base : Option OpId}

/-- The records of a delta, in the order they are paged in. -/
def delta (log : OpLog) (head : OpId) (base : Option OpId) : List OperationRecord :=
  (deltaOrder log head base).filterMap log.get

/-- The peer holds the base's ancestry, and what both hold is the same. -/
structure Shares (log peer : OpLog) (base : Option OpId) : Prop where
  ancestry : ∀ b, base = some b → ∀ id, log.Reach b id → peer.get id ≠ none
  same : ∀ id record, log.get id = some record → ∀ stored, peer.get id = some stored → stored = record

theorem mem_delta_iff {record : OperationRecord} : record ∈ delta log head base ↔
    log.get record.opId = some record ∧ record.opId ∈ deltaOrder log head base := by
  unfold delta
  rw [mem_filterMap]
  constructor
  · rintro ⟨id, hid, hget⟩
    obtain rfl := OpLog.get_opId hget
    exact ⟨hget, hid⟩
  · rintro ⟨hget, hid⟩
    exact ⟨_, hid, hget⟩

/-- Records of a log with parents first, whose other parents the peer holds or has been sent. -/
theorem admitted_of_parentsFirst (hlog : WellFormedHistory digest log) :
    ∀ {records : List OperationRecord} {sent : List OpId}, (∀ r ∈ records, log.get r.opId = some r) →
      records.Pairwise (fun earlier later => later.opId ∉ earlier.op.parents) → (∀ r ∈ records, ∀ p ∈ r.op.parents,
        peer.get p ≠ none ∨ p ∈ sent ∨ p ∈ records.map OperationRecord.opId) → Admitted digest peer sent records
  | [], _, _, _, _ => trivial
  | record :: records, sent, hin, hfirst, hparents => by
    obtain ⟨hget, hin⟩ := forall_mem_cons.mp hin
    obtain ⟨hlater, hrest⟩ := pairwise_cons.mp hfirst
    refine ⟨⟨hlog.hashed _ record hget, fun p hp => ?_, fun manifest hkind => ?_⟩,
      admitted_of_parentsFirst hlog hin hrest fun r hr p hp => ?_⟩
    · refine (hparents record mem_cons_self p hp).imp_right (Or.resolve_right · fun hmem => ?_)
      rcases mem_cons.mp hmem with rfl | hmem
      · exact hlog.acyclic _ (.single (OpLog.edge_iff.mpr ⟨record, hget, hp⟩))
      · obtain ⟨later, hlaterMem, rfl⟩ := mem_map.mp hmem
        exact hlater later hlaterMem hp
    · have hproduces := hlog.produces _ record hget
      rw [hkind] at hproduces
      exact hproduces
    · have h := hparents r (mem_cons_of_mem _ hr) p hp
      rw [map_cons, mem_cons] at h
      rw [mem_cons]
      tauto

end LexLang.Api
