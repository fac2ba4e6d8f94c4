/-
# LexLang.Attest.Log — the attestation log, one call at a time

The files of the log (`AttestationLog` in `lex-vcs/src/attestation.rs`): a primary file and an arrival
stamp for each attestation, the counter the stamps come from, and the markers of the stage index. An
attestation that is there is not written again, so a log holds the first of each id (`firsts`), stamped
in the order they came (`Follows.stamps`).

Listing a directory gives its entries in some order; what is said of a list of attestations here is
said of every permutation of it.
-/
import LexLang.Attest.Attestation
import Mathlib.Data.Prod.Lex

namespace LexLang.Attest

open LexLang.Vcs (StageId)
open Bool List Option Std.ExtTreeMap

/-! ## The files -/

/-- **The files of the log**, as far as they are read. -/
structure AttestationLog where
  primary : Std.ExtTreeMap AttestationId Attestation
  /-- `arrival/<id>` -/
  arrival : Std.ExtTreeMap AttestationId Nat
  /-- `arrival.seq` -/
  counter : Option Nat
  /-- `by-stage/<stage>/<id>` -/
  byStage : List (StageId × AttestationId)

namespace AttestationLog

def empty : AttestationLog := ⟨∅, ∅, none, []⟩

/-- The highest stamp there is, for a counter that was lost. -/
def scanArrivalHighWater (log : AttestationLog) : Nat :=
  log.arrival.toList.foldl (fun highest entry => max highest entry.2) 0

/-- Stamp an id, unless it has a stamp. -/
def stampArrival (log : AttestationLog) (id : AttestationId) : AttestationLog :=
  if id ∈ log.arrival then log
  else
    let last := match log.counter with
      | some n => n
      | none => log.scanArrivalHighWater
    { log with counter := some (last + 1), arrival := log.arrival.insert id (last + 1) }

/-- Write the stamp and the primary file, unless the primary file is there. -/
def persist (log : AttestationLog) (a : Attestation) : AttestationLog :=
  if a.attestationId ∈ log.primary then log
  else
    let log := log.stampArrival a.attestationId
    { log with primary := log.primary.insert a.attestationId a }

/-- Write the marker of the stage index, unless it is there. -/
def index (log : AttestationLog) (a : Attestation) : AttestationLog :=
  if (a.stageId, a.attestationId) ∈ log.byStage then log
  else { log with byStage := log.byStage ++ [(a.stageId, a.attestationId)] }

/-- **Persist an attestation.** -/
def put (log : AttestationLog) (a : Attestation) : AttestationLog := (log.persist a).index a

/-- One put after another, on an empty log. -/
def puts (issued : List Attestation) : AttestationLog := issued.foldl put empty

/-- The attestation of an id. -/
def get (log : AttestationLog) (id : AttestationId) : Option Attestation := log.primary[id]?

/-- The attestations of a stage. -/
def listForStage (log : AttestationLog) (stageId : StageId) : List Attestation :=
  log.byStage.filterMap fun entry => if entry.1 = stageId then log.get entry.2 else none

/-- Every attestation. -/
def listAll (log : AttestationLog) : List Attestation := log.primary.toList.map Prod.snd

/-- **One attestation is not after another**: by stamp, those without one first, and by timestamp
among them. -/
def arrivalLe (log : AttestationLog) (a b : Attestation) : Bool :=
  match log.arrival[a.attestationId]?, log.arrival[b.attestationId]? with
  | none, none => decide (a.timestamp < b.timestamp) ||
      (decide (a.timestamp = b.timestamp) && decide (a.attestationId ≤ b.attestationId))
  | none, some _ => true
  | some _, none => false
  | some x, some y => decide (x < y) || (decide (x = y) && decide (a.attestationId ≤ b.attestationId))

/-- Oldest first, by arrival. -/
def sortByArrival (log : AttestationLog) (attestations : List Attestation) : List Attestation :=
  attestations.mergeSort log.arrivalLe

end AttestationLog

/-! ## The first of each id -/

/-- The first attestation of each id, in order. -/
def firsts (issued : List Attestation) : List Attestation :=
  issued.foldl (fun found a =>
    if a.attestationId ∈ found.map Attestation.attestationId then found else found ++ [a]) []

theorem firsts_append_singleton (issued : List Attestation) (a : Attestation) : firsts (issued ++ [a]) =
      if a.attestationId ∈ (firsts issued).map Attestation.attestationId then firsts issued
      else firsts issued ++ [a] := by
  unfold firsts
  rw [foldl_append]
  rfl

theorem firsts_sublist (issued : List Attestation) : (firsts issued).Sublist issued := by
  induction issued using reverseRecOn with
  | nil => exact Sublist.slnil
  | append_singleton issued a ih =>
    rw [firsts_append_singleton]
    split
    · exact ih.trans (sublist_append_left issued [a])
    · exact ih.append (Sublist.refl [a])

variable {id : AttestationId}

theorem mem_ids_firsts {issued : List Attestation} : id ∈ (firsts issued).map Attestation.attestationId ↔
      id ∈ issued.map Attestation.attestationId := by
  induction issued using reverseRecOn with
  | nil => rfl
  | append_singleton issued a ih =>
    rw [firsts_append_singleton]
    split
    · next hold =>
      rw [ih, map_append, mem_append]
      constructor
      · exact Or.inl
      · rintro (h | h)
        · exact h
        · obtain rfl := mem_singleton.mp h
          exact ih.mp hold
    · rw [map_append, map_append, mem_append, mem_append, ih]

theorem nodup_ids_firsts (issued : List Attestation) : ((firsts issued).map Attestation.attestationId).Nodup := by
  induction issued using reverseRecOn with
  | nil => exact nodup_nil
  | append_singleton issued a ih =>
    rw [firsts_append_singleton]
    split
    · exact ih
    · next hnew =>
      rw [map_append]
      refine Nodup.append ih (nodup_singleton _) ?_
      intro id hid hid'
      obtain rfl := mem_singleton.mp hid'
      exact hnew hid

variable {more : List Attestation}

theorem firsts_append {issued : List Attestation} (hnodup : (more.map Attestation.attestationId).Nodup) :
    firsts (issued ++ more) = firsts issued ++
      more.filter fun a => decide (a.attestationId ∉ issued.map Attestation.attestationId) := by
  induction more using reverseRecOn with
  | nil => rw [append_nil, filter_nil, append_nil]
  | append_singleton more a ih =>
    rw [map_append, nodup_append] at hnodup
    obtain ⟨hmore, -, hdisjoint⟩ := hnodup
    have hnew : a.attestationId ∉ more.map Attestation.attestationId := by
      intro h
      exact hdisjoint _ h _ (mem_singleton.mpr rfl) rfl
    have hin : a.attestationId ∈ (firsts (issued ++ more)).map Attestation.attestationId ↔
        a.attestationId ∈ issued.map Attestation.attestationId := by
      rw [mem_ids_firsts, map_append, mem_append, or_iff_left hnew]
    rw [← append_assoc, firsts_append_singleton, filter_append]
    by_cases hold : a.attestationId ∈ issued.map Attestation.attestationId
    · rw [if_pos (hin.mpr hold), ih hmore]
      simp only [filter_singleton, hold, not_true_eq_false, decide_false, cond_false, append_nil]
    · rw [if_neg fun h => hold (hin.mp h), ih hmore]
      simp only [filter_singleton, hold, not_false_eq_true, decide_true, cond_true, append_assoc]

/-! ## What a log holds -/

namespace AttestationLog

/-- **A log holds the first of each id issued**, stamped from one in the order they came, and lists
each under its stage. -/
structure Follows (log : AttestationLog) (issued : List Attestation) : Prop where
  primary : ∀ id, log.primary[id]? = (firsts issued).find? fun a => decide (a.attestationId = id)
  arrival : ∀ id, log.arrival[id]? =
    ((firsts issued).findIdx? fun a => decide (a.attestationId = id)).map (· + 1)
  counter : log.counter = if firsts issued = [] then none else some (firsts issued).length
  byStage : ∀ stage id, (stage, id) ∈ log.byStage ↔
    ∃ a ∈ issued, a.stageId = stage ∧ a.attestationId = id
  nodup : log.byStage.Nodup

theorem follows_empty : Follows empty [] where
  primary := fun _ => by simp [empty, firsts]
  arrival := fun _ => by simp [empty, firsts]
  counter := rfl
  byStage := fun _ _ => by simp [empty]
  nodup := nodup_nil

variable {log : AttestationLog} {issued : List Attestation}

variable (h : Follows log issued)
include h

theorem Follows.mem_primary (id : AttestationId) :
    id ∈ log.primary ↔ id ∈ (firsts issued).map Attestation.attestationId := by
  rw [mem_iff_isSome_getElem?, h.primary, find?_isSome, List.mem_map]
  simp only [decide_eq_true_eq]

theorem Follows.mem_arrival (id : AttestationId) :
    id ∈ log.arrival ↔ id ∈ (firsts issued).map Attestation.attestationId := by
  rw [mem_iff_isSome_getElem?, h.arrival, isSome_map,
    findIdx?_isSome, List.any_eq_true, List.mem_map]
  simp only [decide_eq_true_eq]

/-- A new id is stamped with the next number, and written. -/
theorem Follows.persist (a : Attestation) : (∀ id, (log.persist a).primary[id]? =
      (firsts (issued ++ [a])).find? fun b => decide (b.attestationId = id)) ∧ (∀ id, (log.persist a).arrival[id]? =
      ((firsts (issued ++ [a])).findIdx? fun b => decide (b.attestationId = id)).map (· + 1)) ∧
    (log.persist a).counter = (if firsts (issued ++ [a]) = [] then none else some (firsts (issued ++ [a])).length) ∧
    (log.persist a).byStage = log.byStage := by
  rw [firsts_append_singleton]
  by_cases hold : a.attestationId ∈ (firsts issued).map Attestation.attestationId
  · rw [AttestationLog.persist, if_pos ((h.mem_primary _).mpr hold), if_pos hold]
    exact ⟨h.primary, h.arrival, h.counter, rfl⟩
  · have hlast : (match log.counter with
        | some n => n
        | none => log.scanArrivalHighWater) = (firsts issued).length := by
      rw [h.counter]
      by_cases hempty : firsts issued = []
      · -- nothing was stamped, and a scan finds nothing
        have hnone : log.arrival = ∅ := by
          apply Std.ExtTreeMap.ext_getElem?
          intro id
          rw [h.arrival, hempty]
          simp
        have hlist : log.arrival.toList = [] := Std.ExtTreeMap.toList_eq_nil_iff.mpr hnone
        rw [if_pos hempty, hempty]
        simp [scanArrivalHighWater, hlist]
      · rw [if_neg hempty]
    rw [AttestationLog.persist, if_neg fun hin => hold ((h.mem_primary _).mp hin),
      AttestationLog.stampArrival, if_neg fun hin => hold ((h.mem_arrival _).mp hin), if_neg hold]
    simp only [hlast]
    refine ⟨fun id => ?_, fun id => ?_, ?_, trivial⟩
    · rw [Std.ExtTreeMap.getElem?_insert, find?_append, h.primary]
      by_cases hid : a.attestationId = id
      · subst hid
        have hfresh : (firsts issued).find? (fun b => decide (b.attestationId = a.attestationId)) =
            none := by
          rw [find?_eq_none]
          intro b hb
          rw [decide_eq_true_eq]
          exact fun heq => hold (heq ▸ List.mem_map_of_mem hb)
        simp [hfresh]
      · simp [hid]
    · rw [Std.ExtTreeMap.getElem?_insert, findIdx?_append, h.arrival]
      by_cases hid : a.attestationId = id
      · subst hid
        have hfresh : (firsts issued).findIdx? (fun b => decide (b.attestationId = a.attestationId)) =
            none := by
          rw [findIdx?_eq_none_iff]
          intro b hb
          rw [decide_eq_false_iff_not]
          exact fun heq => hold (heq ▸ List.mem_map_of_mem hb)
        simp [hfresh]
      · simp [hid]
    · simp

/-- **A put follows what is issued.** -/
theorem Follows.put (a : Attestation) : Follows (log.put a) (issued ++ [a]) := by
  obtain ⟨hprimary, harrival, hcounter, hbyStage⟩ := h.persist a
  have hmem : ∀ stage id, (∃ b ∈ issued ++ [a], b.stageId = stage ∧ b.attestationId = id) ↔
      (stage, id) ∈ log.byStage ∨ (stage, id) = (a.stageId, a.attestationId) := by
    intro stage id
    simp only [mem_append, mem_singleton, or_and_right, exists_or, exists_eq_left,
      h.byStage, Prod.mk.injEq, @eq_comm _ stage, @eq_comm _ id]
  unfold AttestationLog.put AttestationLog.index
  split
  · next hin =>
    refine ⟨hprimary, harrival, hcounter, fun stage id => ?_, hbyStage ▸ h.nodup⟩
    rw [hbyStage] at hin ⊢
    rw [hmem]
    constructor
    · exact Or.inl
    · rintro (hold | heq)
      · exact hold
      · exact heq ▸ hin
  · next hnew =>
    refine ⟨hprimary, harrival, hcounter, fun stage id => ?_, ?_⟩
    · rw [hmem, hbyStage, mem_append, mem_singleton]
    · rw [hbyStage] at hnew ⊢
      exact Nodup.append h.nodup (nodup_singleton _)
        (disjoint_singleton.mpr hnew)

omit h in
theorem follows_puts (issued : List Attestation) : Follows (puts issued) issued := by
  induction issued using reverseRecOn with
  | nil => exact follows_empty
  | append_singleton issued a ih =>
    unfold puts
    rw [foldl_append]
    exact ih.put a

omit h in
theorem find?_firsts {a : Attestation} : (firsts issued).find? (fun b => decide (b.attestationId = id)) = some a ↔
      a ∈ firsts issued ∧ a.attestationId = id := by
  constructor
  · intro h
    have hfound := find?_some h
    exact ⟨mem_of_find?_eq_some h, of_decide_eq_true hfound⟩
  · rintro ⟨hmem, rfl⟩
    cases hfind : (firsts issued).find? fun b => decide (b.attestationId = a.attestationId) with
    | none =>
      have hnone := find?_eq_none.mp hfind a hmem
      exact absurd (decide_eq_true rfl) hnone
    | some b =>
      have hfound := find?_some hfind
      have hid := of_decide_eq_true hfound
      exact congrArg some (inj_on_of_nodup_map (nodup_ids_firsts issued)
        (mem_of_find?_eq_some hfind) hmem hid)

theorem Follows.get_eq_some {a : Attestation} : log.get id = some a ↔ a ∈ firsts issued ∧ a.attestationId = id := by
  rw [get, h.primary, find?_firsts]

/-- Every attestation issued, the first of its id. -/
theorem Follows.listAll_perm : log.listAll.Perm (firsts issued) := by
  have hentries : ∀ entry ∈ log.primary.toList, entry.2.attestationId = entry.1 := fun entry he =>
    (h.get_eq_some.mp (mem_toList_iff_getElem?_eq_some.mp he)).2
  have hids : log.listAll.map Attestation.attestationId = log.primary.toList.map Prod.fst := by
    rw [listAll, List.map_map]
    exact map_congr_left hentries
  have hnodup : (log.listAll.map Attestation.attestationId).Nodup := by
    rw [hids, map_fst_toList_eq_keys]
    exact nodup_keys
  refine (perm_ext_iff_of_nodup hnodup.of_map (nodup_ids_firsts issued).of_map).mpr fun a => ?_
  rw [listAll, List.mem_map]
  constructor
  · rintro ⟨entry, he, rfl⟩
    exact (h.get_eq_some.mp (mem_toList_iff_getElem?_eq_some.mp he)).1
  · intro ha
    have hget := h.get_eq_some.mpr ⟨ha, rfl⟩
    exact ⟨(a.attestationId, a), mem_toList_iff_getElem?_eq_some.mpr hget, rfl⟩

/-- The attestations issued for a stage, the first of each id. -/
theorem Follows.listForStage_perm (hidentified : Identified issued) (stage : StageId) :
    (log.listForStage stage).Perm ((firsts issued).filter fun a => decide (a.stageId = stage)) := by
  have hnodup : (log.listForStage stage).Nodup := by
    rw [listForStage, Nodup, pairwise_filterMap]
    refine h.nodup.imp fun {entry entry'} hne a ha a' ha' heq => hne ?_
    split at ha
    · next hs =>
      split at ha'
      · next hs' =>
        have hid := (h.get_eq_some.mp ha).2
        have hid' := (h.get_eq_some.mp ha').2
        exact Prod.ext (hs.trans hs'.symm) (by rw [← hid, ← hid', heq])
      · cases ha'
    · cases ha
  have hfirsts := (nodup_ids_firsts issued).of_map.filter fun a => decide (a.stageId = stage)
  refine (perm_ext_iff_of_nodup hnodup hfirsts).mpr fun a => ?_
  rw [listForStage, List.mem_filterMap, List.mem_filter, decide_eq_true_eq]
  constructor
  · rintro ⟨⟨stage', id⟩, he, ha⟩
    split at ha
    · next hs =>
      obtain ⟨hmem, hid⟩ := h.get_eq_some.mp ha
      obtain ⟨b, hb, hbstage, hbid⟩ := (h.byStage stage' id).mp he
      have hpayload := hidentified a ((firsts_sublist issued).subset hmem) b hb
        (hid.trans hbid.symm)
      refine ⟨hmem, ?_⟩
      rw [Attestation.stageId, hpayload]
      exact hbstage.trans hs
    · cases ha
  · rintro ⟨hmem, rfl⟩
    refine ⟨(a.stageId, a.attestationId), ?_, ?_⟩
    · exact (h.byStage _ _).mpr ⟨a, (firsts_sublist issued).subset hmem, rfl, rfl⟩
    · rw [if_pos rfl]
      exact h.get_eq_some.mpr ⟨hmem, rfl⟩

omit h

/-! ## Order of arrival -/

theorem lex_iff {m n : Nat} {id id' : AttestationId} : m < n ∨ m = n ∧ id ≤ id' ↔ toLex (m, id) ≤ toLex (n, id') :=
  (Prod.Lex.toLex_le_toLex (x := (m, id)) (y := (n, id'))).symm

theorem arrivalLe_total (log : AttestationLog) (a b : Attestation) :
    (log.arrivalLe a b || log.arrivalLe b a) = true := by
  unfold arrivalLe
  cases log.arrival[a.attestationId]? <;> cases log.arrival[b.attestationId]?
  · simp only [or_eq_true, and_eq_true, decide_eq_true_eq, lex_iff]
    exact le_total _ _
  · rfl
  · rfl
  · simp only [or_eq_true, and_eq_true, decide_eq_true_eq, lex_iff]
    exact le_total _ _

theorem arrivalLe_trans (log : AttestationLog) (a b c : Attestation)
    (hab : log.arrivalLe a b = true) (hbc : log.arrivalLe b c = true) : log.arrivalLe a c = true := by
  revert hab hbc
  unfold arrivalLe
  cases log.arrival[a.attestationId]? <;> cases log.arrival[b.attestationId]? <;>
    cases log.arrival[c.attestationId]?
  all_goals simp only [or_eq_true, and_eq_true, decide_eq_true_eq, false_eq_true,
    false_implies, implies_true, lex_iff]
  · exact le_trans
  · exact le_trans

/-- One attestation sorts before another. -/
def Before (log : AttestationLog) (a b : Attestation) : Prop :=
  log.arrivalLe a b = true ∧ ¬ log.arrivalLe b a = true

section Before

variable {a b : Attestation}

theorem before_of_stamps {m n : Nat} (ha : log.arrival[a.attestationId]? = some m)
    (hb : log.arrival[b.attestationId]? = some n) (h : m < n) : log.Before a b := by
  unfold Before arrivalLe
  rw [ha, hb]
  simp only [or_eq_true, and_eq_true, decide_eq_true_eq]
  omega

theorem before_of_unstamped (ha : a.attestationId ∉ log.arrival)
    (hb : b.attestationId ∈ log.arrival) : log.Before a b := by
  obtain ⟨n, hn⟩ := isSome_iff_exists.mp (mem_iff_isSome_getElem?.mp hb)
  unfold Before arrivalLe
  rw [Std.ExtTreeMap.getElem?_eq_none ha, hn]
  simp

theorem arrivalLe_antisymm (hab : log.arrivalLe a b = true) (hba : log.arrivalLe b a = true) :
    a.attestationId = b.attestationId := by
  revert hab hba
  unfold arrivalLe
  cases log.arrival[a.attestationId]? <;> cases log.arrival[b.attestationId]?
  all_goals simp only [or_eq_true, and_eq_true, decide_eq_true_eq, false_eq_true,
    false_implies, implies_true, lex_iff]
  · exact fun h h' => (Prod.mk.inj (toLex.injective (le_antisymm h h'))).2
  · exact fun h h' => (Prod.mk.inj (toLex.injective (le_antisymm h h'))).2

theorem before_or_before (log : AttestationLog) (h : a.attestationId ≠ b.attestationId) :
    log.Before a b ∨ log.Before b a := by
  have htotal := log.arrivalLe_total a b
  rw [or_eq_true] at htotal
  rcases htotal with hab | hba
  · exact .inl ⟨hab, fun hba => h (arrivalLe_antisymm hab hba)⟩
  · exact .inr ⟨hba, fun hab => h (arrivalLe_antisymm hab hba)⟩

end Before

/-- Stamped attestations are in the order of their stamps. -/
theorem Follows.firsts_sorted (h : Follows log issued) : (firsts issued).Pairwise log.Before := by
  rw [pairwise_iff_getElem]
  intro i j hi hj hij
  have hstamp : ∀ k (hk : k < (firsts issued).length),
      log.arrival[((firsts issued)[k]).attestationId]? = some (k + 1) := by
    intro k hk
    have hfind : (firsts issued).findIdx? (fun b =>
        decide (b.attestationId = ((firsts issued)[k]).attestationId)) = some k := by
      rw [findIdx?_eq_some_iff_getElem]
      refine ⟨hk, decide_eq_true rfl, fun k' hk' => ?_⟩
      rw [decide_eq_true_eq]
      intro heq
      have hnodup := nodup_ids_firsts issued
      rw [Nodup, pairwise_map, pairwise_iff_getElem] at hnodup
      exact hnodup k' k (by omega) hk hk' heq
    rw [h.arrival, hfind]
    rfl
  exact before_of_stamps (hstamp i hi) (hstamp j hj) (by omega)

theorem arrival_puts_append (hid : id ∈ issued.map Attestation.attestationId) :
    (puts (issued ++ more)).arrival[id]? = (puts issued).arrival[id]? := by
  induction more using reverseRecOn with
  | nil => rw [append_nil]
  | append_singleton more a ih =>
    rw [← ih, ← append_assoc, (follows_puts _).arrival, (follows_puts _).arrival, firsts_append_singleton]
    split
    · rfl
    · rw [findIdx?_append]
      have hfound : (((firsts (issued ++ more)).findIdx? fun b =>
          decide (b.attestationId = id))).isSome = true := by
        have hin : id ∈ (firsts (issued ++ more)).map Attestation.attestationId := by
          rw [mem_ids_firsts, map_append]
          exact mem_append_left _ hid
        obtain ⟨b, hb, hbid⟩ := List.mem_map.mp hin
        rw [findIdx?_isSome, List.any_eq_true]
        exact ⟨b, hb, decide_eq_true hbid⟩
      obtain ⟨i, hi⟩ := isSome_iff_exists.mp hfound
      rw [hi, some_or]

/-- So the order of what is there stays. -/
theorem before_puts_append_iff {a b : Attestation} (ha : a.attestationId ∈ issued.map Attestation.attestationId)
    (hb : b.attestationId ∈ issued.map Attestation.attestationId) :
    (puts (issued ++ more)).Before a b ↔ (puts issued).Before a b := by
  unfold Before arrivalLe
  rw [arrival_puts_append ha, arrival_puts_append hb]

/-- **Sorting by arrival gives the order attestations came in**, however they were listed. -/
theorem Follows.sortByArrival_eq (h : Follows log issued) {listed : List Attestation}
    {chosen : Attestation → Bool} (hlisted : listed.Perm ((firsts issued).filter chosen)) :
    log.sortByArrival listed = (firsts issued).filter chosen := by
  unfold sortByArrival
  have hsorted : (listed.mergeSort log.arrivalLe).Pairwise fun a b => log.arrivalLe a b = true :=
    pairwise_mergeSort (arrivalLe_trans log) (arrivalLe_total log) listed
  have hperm := (mergeSort_perm listed log.arrivalLe).trans hlisted
  have hstrict := h.firsts_sorted.filter chosen
  refine Perm.eq_of_pairwise (fun a b ha hb hab hba => ?_) hsorted (hstrict.imp And.left) hperm
  -- two that are not after one another are one
  have hmem := hperm.subset ha
  by_contra hne
  have hstrict' := pairwise_iff_getElem.mp hstrict
  obtain ⟨i, hi, rfl⟩ := getElem_of_mem hmem
  obtain ⟨j, hj, rfl⟩ := getElem_of_mem hb
  rcases lt_trichotomy i j with hij | hij | hij
  · exact (hstrict' i j hi hj hij).2 hba
  · subst hij
    exact hne rfl
  · exact (hstrict' j i hj hi hij).2 hab

end AttestationLog

end LexLang.Attest
