/-
# LexLang.Vcs.PredicateEval — saved queries evaluated over the files of the op log

`evaluate_with_resolver` (`lex-vcs/src/predicate.rs`) first walks every ancestry that a query names,
once each, into a table; then it scans one ancestry or the whole log and keeps what matches, an
`AncestorOf` clause being looked up in the table. `Predicate.Holds` says what a query means for a
record, with no table and no scan. On a log whose records are filed under their own ids the two agree
(`evaluateWithResolver_exact`): a scan of one ancestry leaves out no match, however the clauses are
nested, because `candidateRoot` looks through `And` only (`reach_of_holds`).
-/
import LexLang.Vcs.DirWalk
import LexLang.Vcs.PredicateJson

namespace LexLang.Vcs

open Bool Option Std.ExtTreeMap

/-! ## What a query means -/

namespace Predicate

section Holds

variable (parents : OpId → Option (List OpId)) (sessionOf : IntentId → Option String)
  (record : OperationRecord)

mutual

/-- **A query holds of a record**, the history being given by the `parents` of the records held. -/
def Holds : Predicate → Prop
  | .all => True
  | .intent intentId => record.op.intentId = some intentId
  | .session sessionId =>
    ∃ intentId, record.op.intentId = some intentId ∧ sessionOf intentId = some sessionId
  | .ancestorOf opId => Graph.Reach parents opId record.opId
  | .and ps => HoldAll ps
  | .or ps => HoldAny ps
  | .not p => ¬ Holds p

def HoldAll : List Predicate → Prop
  | [] => True
  | p :: ps => Holds p ∧ HoldAll ps

def HoldAny : List Predicate → Prop
  | [] => False
  | p :: ps => Holds p ∨ HoldAny ps

end

end Holds

variable {parents : OpId → Option (List OpId)} {sessionOf : IntentId → Option String}
  {record : OperationRecord}

theorem holdAll_iff {ps : List Predicate} :
    HoldAll parents sessionOf record ps ↔ ∀ p ∈ ps, Holds parents sessionOf record p := by
  induction ps with
  | nil => simp [HoldAll]
  | cons p ps ih => rw [HoldAll, ih, List.forall_mem_cons]

theorem holdAny_iff {ps : List Predicate} :
    HoldAny parents sessionOf record ps ↔ ∃ p ∈ ps, Holds parents sessionOf record p := by
  induction ps with
  | nil => simp [HoldAny]
  | cons p ps ih => rw [HoldAny, ih, List.exists_mem_cons_iff]

mutual

/-- **A scan of the candidate root's ancestry leaves out no match.** -/
theorem reach_of_holds {root : OpId} : ∀ {p : Predicate}, p.candidateRoot = some root →
    Holds parents sessionOf record p → Graph.Reach parents root record.opId
  | .ancestorOf opId, hroot, hholds => by
    obtain rfl := some.inj hroot
    exact hholds
  | .and ps, hroot, hholds => @reach_of_holdAll root ps hroot hholds

theorem reach_of_holdAll {root : OpId} : ∀ {ps : List Predicate}, firstRoot ps = some root →
    HoldAll parents sessionOf record ps → Graph.Reach parents root record.opId
  | p :: ps, hroot, hholds => by
    rw [HoldAll] at hholds
    rw [firstRoot] at hroot
    rcases or_eq_some_iff.mp hroot with h | ⟨_, h⟩
    · exact reach_of_holds h hholds.1
    · exact reach_of_holdAll h hholds.2

end

mutual

/-- The operations whose ancestries a query names. -/
def named : Predicate → List OpId
  | .ancestorOf opId => [opId]
  | .and ps | .or ps => namedIn ps
  | .not p => named p
  | .all | .intent _ | .session _ => []

def namedIn : List Predicate → List OpId
  | [] => []
  | p :: ps => named p ++ namedIn ps

end

mutual

/-- **A query sees of the log only the ancestries it names.** -/
theorem matches_congr {log log' : OpLog} : ∀ {p : Predicate},
    (∀ id ∈ p.named, log.walkBack id none = log'.walkBack id none) →
      p.matches log sessionOf record = p.matches log' sessionOf record
  | .all, _ | .intent _, _ | .session _, _ => rfl
  | .ancestorOf id, h => by
    unfold Predicate.matches
    rw [h id (List.mem_singleton_self id)]
  | .and _, h => (matchesIn_congr h).1
  | .or _, h => (matchesIn_congr h).2
  | .not _, h => congrArg Bool.not (matches_congr h)

theorem matchesIn_congr {log log' : OpLog} : ∀ {ps : List Predicate},
    (∀ id ∈ namedIn ps, log.walkBack id none = log'.walkBack id none) →
      allMatch log sessionOf record ps = allMatch log' sessionOf record ps ∧
        anyMatch log sessionOf record ps = anyMatch log' sessionOf record ps
  | [], _ => ⟨rfl, rfl⟩
  | _ :: _, h => by
    have hp := matches_congr fun id hid => h id (List.mem_append_left _ hid)
    have hps := matchesIn_congr fun id hid => h id (List.mem_append_right _ hid)
    exact ⟨congrArg₂ Bool.and hp hps.1, congrArg₂ Bool.or hp hps.2⟩

end

end Predicate

/-! ## The evaluator -/

namespace OpsDir

/-- The ancestries walked so far. -/
abbrev Ancestries := Std.ExtTreeMap OpId (Finset OpId)

section Defs

variable (disk : Disk) (dir : OpsDir)

mutual

/-- Walk every ancestry that a query names, unless it is in the table; `none` is an I/O error. -/
def collectAncestorOps : Predicate → Ancestries → Option Ancestries
  | .ancestorOf opId, out =>
    if out.contains opId then some out
    else
      match dir.walkBack disk opId none with
      | none => none
      | some records => some (out.insert opId (records.map OperationRecord.opId).toFinset)
  | .and ps, out | .or ps, out => collectAll ps out
  | .not p, out => collectAncestorOps p out
  | .all, out | .intent _, out | .session _, out => some out

def collectAll : List Predicate → Ancestries → Option Ancestries
  | [], out => some out
  | p :: ps, out =>
    match collectAncestorOps p out with
    | none => none
    | some out => collectAll ps out

end

/-- What is scanned: one ancestry, or the whole log. -/
def candidateSet : Option OpId → Option (List OperationRecord)
  | some head => dir.walkBack disk head none
  | none => dir.listAll disk

section Matches

variable (record : OperationRecord) (sessionOf : IntentId → Option String) (ancestries : Ancestries)

mutual

/-- Whether a record matches. -/
def «matches» : Predicate → Bool
  | .all => true
  | .intent intentId => record.op.intentId == some intentId
  | .session sessionId =>
    match record.op.intentId with
    | some id =>
      match sessionOf id with
      | some s => s == sessionId
      | none => false
    | none => false
  | .ancestorOf opId =>
    match ancestries[opId]? with
    | some set => decide (record.opId ∈ set)
    | none => false
  | .and ps => allMatch ps
  | .or ps => anyMatch ps
  | .not p => !«matches» p

def allMatch : List Predicate → Bool
  | [] => true
  | p :: ps => «matches» p && allMatch ps

def anyMatch : List Predicate → Bool
  | [] => false
  | p :: ps => «matches» p || anyMatch ps

end

end Matches

/-- **The records that match a query**, with sessions looked up by `sessionOf`; `none` is an I/O
error. -/
def evaluateWithResolver (p : Predicate) (sessionOf : IntentId → Option String) :
    Option (List OperationRecord) :=
  match dir.collectAncestorOps disk p ∅ with
  | none => none
  | some ancestries =>
    match dir.candidateSet disk p.candidateRoot with
    | none => none
    | some candidates =>
      some (candidates.filter fun record => OpsDir.matches record sessionOf ancestries p)

end Defs

variable {digest : Digest} {disk : Disk} {dir : OpsDir}

/-! ## The table -/

section Table

/-- Every entry of the table is the ancestry of its operation. -/
def Exact (disk : Disk) (dir : OpsDir) (ancestries : Ancestries) : Prop :=
  ∀ (opId : OpId) (set : Finset OpId), ancestries[opId]? = some set →
    ∃ records, dir.walkBack disk opId none = some records ∧
      set = (records.map OperationRecord.opId).toFinset

/-- A table, and one with more entries. -/
def Extends (ancestries ancestries' : Ancestries) : Prop :=
  ∀ (opId : OpId) (set : Finset OpId), ancestries[opId]? = some set →
    ancestries'[opId]? = some set

/-- What a walk through a query makes of the table. -/
structure Collects (disk : Disk) (dir : OpsDir) (ids : List OpId) (out out' : Ancestries) :
    Prop where
  exact : Exact disk dir out'
  keeps : Extends out out'
  has : ∀ opId ∈ ids, ∃ set, out'[opId]? = some set

theorem Collects.append {ids ids' : List OpId} {out mid out' : Ancestries}
    (h : Collects disk dir ids out mid) (h' : Collects disk dir ids' mid out') :
    Collects disk dir (ids ++ ids') out out' := by
  refine ⟨h'.exact, fun opId set hset => h'.keeps opId set (h.keeps opId set hset), ?_⟩
  intro opId hid
  rcases List.mem_append.mp hid with hid | hid
  · obtain ⟨set, hset⟩ := h.has opId hid
    exact ⟨set, h'.keeps opId set hset⟩
  · exact h'.has opId hid

mutual

/-- **The table has every ancestry that the query names**, and only ancestries. -/
theorem collectAncestorOps_collects : ∀ {p : Predicate} {out out' : Ancestries},
    Exact disk dir out → dir.collectAncestorOps disk p out = some out' →
    Collects disk dir p.named out out'
  | .ancestorOf opId, out, out', h, hcollect => by
    unfold collectAncestorOps at hcollect
    by_cases hseen : out.contains opId = true
    · rw [if_pos hseen] at hcollect
      obtain rfl := some.inj hcollect
      refine ⟨h, fun _ _ hset => hset, fun id hid => ?_⟩
      obtain rfl := List.mem_singleton.mp hid
      rw [← isSome_getElem?_eq_contains] at hseen
      exact isSome_iff_exists.mp hseen
    · rw [if_neg hseen] at hcollect
      cases hwalk : dir.walkBack disk opId none with
      | none => simp [hwalk] at hcollect
      | some records =>
        simp only [hwalk, some.injEq] at hcollect
        subst hcollect
        refine ⟨fun id set hset => ?_, fun id set hset => ?_, fun id hid => ?_⟩
        · rw [getElem?_insert_eq] at hset
          split at hset
          · rename_i hid
            subst hid
            exact ⟨records, hwalk, (some.inj hset).symm⟩
          · exact h id set hset
        · rw [getElem?_insert_eq, if_neg]
          · exact hset
          · rintro rfl
            apply hseen
            rw [← isSome_getElem?_eq_contains, hset]
            rfl
        · obtain rfl := List.mem_singleton.mp hid
          rw [getElem?_insert_eq, if_pos rfl]
          exact ⟨_, rfl⟩
  | .and ps, _, _, h, hcollect | .or ps, _, _, h, hcollect => by
    unfold collectAncestorOps at hcollect
    unfold Predicate.named
    exact collectAll_collects h hcollect
  | .not p, _, _, h, hcollect => by
    unfold collectAncestorOps at hcollect
    unfold Predicate.named
    exact collectAncestorOps_collects h hcollect
  | .all, out, _, h, hcollect | .intent _, out, _, h, hcollect
  | .session _, out, _, h, hcollect => by
    unfold collectAncestorOps at hcollect
    obtain rfl := some.inj hcollect
    exact ⟨h, fun _ _ hset => hset, by simp [Predicate.named]⟩

theorem collectAll_collects : ∀ {ps : List Predicate} {out out' : Ancestries},
    Exact disk dir out → dir.collectAll disk ps out = some out' →
    Collects disk dir (Predicate.namedIn ps) out out'
  | [], _, _, h, hcollect => by
    unfold collectAll at hcollect
    obtain rfl := some.inj hcollect
    exact ⟨h, fun _ _ hset => hset, by simp [Predicate.namedIn]⟩
  | p :: ps, out, _, h, hcollect => by
    unfold collectAll at hcollect
    cases hmid : dir.collectAncestorOps disk p out with
    | none => simp [hmid] at hcollect
    | some mid =>
      simp only [hmid] at hcollect
      have hfirst := collectAncestorOps_collects h hmid
      exact hfirst.append (collectAll_collects hfirst.exact hcollect)

end

end Table

/-! ## Matching -/

section Matches

variable {sessionOf : IntentId → Option String} {ancestries : Ancestries}
  {record : OperationRecord}

mutual

/-- **With the table, a record that is read matches exactly when the query holds of it.** -/
theorem matches_iff_holds (hfiled : dir.Filed disk) (hexact : Exact disk dir ancestries)
    (hget : dir.get disk record.opId = some (some record)) :
    ∀ {p : Predicate}, (∀ opId ∈ p.named, ∃ set, ancestries[opId]? = some set) →
      (OpsDir.matches record sessionOf ancestries p = true ↔
        p.Holds (dir.parentsOf disk) sessionOf record)
  | .all, _ => by simp [OpsDir.matches, Predicate.Holds]
  | .intent intentId, _ => by simp [OpsDir.matches, Predicate.Holds]
  | .session sessionId, _ => by
    unfold OpsDir.matches Predicate.Holds
    cases record.op.intentId with
    | none => simp
    | some id =>
      cases hs : sessionOf id with
      | none => simp [hs]
      | some s => simp [hs]
  | .ancestorOf opId, hnamed => by
    obtain ⟨set, hset⟩ := hnamed opId (by simp [Predicate.named])
    obtain ⟨records, hwalk, rfl⟩ := hexact opId set hset
    unfold OpsDir.matches Predicate.Holds
    simp only [hset, decide_eq_true_eq, List.mem_toFinset, List.mem_map]
    constructor
    · rintro ⟨found, hfound, hid⟩
      exact hid ▸ ((mem_walkBack_iff hfiled hwalk).mp hfound).2
    · exact fun hreach => ⟨record, (mem_walkBack_iff hfiled hwalk).mpr ⟨hget, hreach⟩, rfl⟩
  | .and ps, hnamed => by
    unfold OpsDir.matches Predicate.Holds
    exact allMatch_iff_holdAll hfiled hexact hget hnamed
  | .or ps, hnamed => by
    unfold OpsDir.matches Predicate.Holds
    exact anyMatch_iff_holdAny hfiled hexact hget hnamed
  | .not p, hnamed => by
    have hp : OpsDir.matches record sessionOf ancestries p = true ↔
        p.Holds (dir.parentsOf disk) sessionOf record := matches_iff_holds hfiled hexact hget hnamed
    unfold OpsDir.matches Predicate.Holds
    rw [← hp, not_eq_true', not_eq_true]

theorem allMatch_iff_holdAll (hfiled : dir.Filed disk) (hexact : Exact disk dir ancestries)
    (hget : dir.get disk record.opId = some (some record)) :
    ∀ {ps : List Predicate},
      (∀ opId ∈ Predicate.namedIn ps, ∃ set, ancestries[opId]? = some set) →
      (allMatch record sessionOf ancestries ps = true ↔
        Predicate.HoldAll (dir.parentsOf disk) sessionOf record ps)
  | [], _ => by simp [allMatch, Predicate.HoldAll]
  | p :: ps, hnamed => by
    rw [Predicate.namedIn, List.forall_mem_append] at hnamed
    rw [allMatch, Predicate.HoldAll, and_eq_true, matches_iff_holds hfiled hexact hget hnamed.1,
      allMatch_iff_holdAll hfiled hexact hget hnamed.2]

theorem anyMatch_iff_holdAny (hfiled : dir.Filed disk) (hexact : Exact disk dir ancestries)
    (hget : dir.get disk record.opId = some (some record)) :
    ∀ {ps : List Predicate},
      (∀ opId ∈ Predicate.namedIn ps, ∃ set, ancestries[opId]? = some set) →
      (anyMatch record sessionOf ancestries ps = true ↔
        Predicate.HoldAny (dir.parentsOf disk) sessionOf record ps)
  | [], _ => by simp [anyMatch, Predicate.HoldAny]
  | p :: ps, hnamed => by
    rw [Predicate.namedIn, List.forall_mem_append] at hnamed
    rw [anyMatch, Predicate.HoldAny, or_eq_true, matches_iff_holds hfiled hexact hget hnamed.1,
      anyMatch_iff_holdAny hfiled hexact hget hnamed.2]

end

end Matches

/-! ## The result -/

section Result

variable {sessionOf : IntentId → Option String} {p : Predicate}

/-- The candidates are read records, no id twice, and every match is one of them. -/
theorem candidateSet_spec (hfiled : dir.Filed disk) {candidates : List OperationRecord}
    (h : dir.candidateSet disk p.candidateRoot = some candidates) : (candidates.map OperationRecord.opId).Nodup ∧
      (∀ record ∈ candidates, dir.get disk record.opId = some (some record)) ∧
      ∀ record, dir.get disk record.opId = some (some record) →
        p.Holds (dir.parentsOf disk) sessionOf record → record ∈ candidates := by
  cases hroot : p.candidateRoot with
  | none =>
    rw [hroot] at h
    obtain ⟨hnodup, hmem⟩ := mem_listAll_iff hfiled h
    exact ⟨hnodup, fun record => (hmem record).mp, fun record hget _ => (hmem record).mpr hget⟩
  | some root =>
    rw [hroot] at h
    have hmem : ∀ record, record ∈ candidates ↔ _ := fun record => mem_walkBack_iff hfiled h
    refine ⟨nodup_walkBack hfiled h, fun record hr => ((hmem record).mp hr).1, ?_⟩
    exact fun record hget hholds =>
      (hmem record).mpr ⟨hget, Predicate.reach_of_holds hroot hholds⟩

/-- The parts of an evaluation that does not fail. -/
theorem evaluateWithResolver_eq_some {out : List OperationRecord}
    (h : dir.evaluateWithResolver disk p sessionOf = some out) :
    ∃ ancestries candidates, dir.collectAncestorOps disk p ∅ = some ancestries ∧
      dir.candidateSet disk p.candidateRoot = some candidates ∧
      out = candidates.filter fun record => OpsDir.matches record sessionOf ancestries p := by
  unfold evaluateWithResolver at h
  cases hcollect : dir.collectAncestorOps disk p ∅ with
  | none => simp [hcollect] at h
  | some ancestries =>
    cases hcandidates : dir.candidateSet disk p.candidateRoot with
    | none => simp [hcollect, hcandidates] at h
    | some candidates =>
      simp only [hcollect, hcandidates, some.injEq] at h
      exact ⟨ancestries, candidates, rfl, rfl, h.symm⟩

mutual

/-- Where no read fails, the table is built. -/
theorem exists_collectAncestorOps (hread : ∀ id, dir.get disk id ≠ none) :
    ∀ (p : Predicate) (out : Ancestries), ∃ out', dir.collectAncestorOps disk p out = some out'
  | .ancestorOf opId, out => by
    unfold collectAncestorOps
    by_cases hseen : out.contains opId = true
    · exact ⟨out, if_pos hseen⟩
    · obtain ⟨records, hwalk⟩ : ∃ records, dir.walkBack disk opId none = some records :=
        exists_walkBackLoop hread _ _ _ _
      rw [if_neg hseen, hwalk]
      exact ⟨_, rfl⟩
  | .and ps, out | .or ps, out => by
    unfold collectAncestorOps
    exact exists_collectAll hread ps out
  | .not p, out => by
    unfold collectAncestorOps
    exact exists_collectAncestorOps hread p out
  | .all, out | .intent _, out | .session _, out => by
    unfold collectAncestorOps
    exact ⟨out, rfl⟩

theorem exists_collectAll (hread : ∀ id, dir.get disk id ≠ none) :
    ∀ (ps : List Predicate) (out : Ancestries), ∃ out', dir.collectAll disk ps out = some out'
  | [], out => ⟨out, rfl⟩
  | p :: ps, out => by
    obtain ⟨mid, hmid⟩ := exists_collectAncestorOps hread p out
    unfold collectAll
    rw [hmid]
    exact exists_collectAll hread ps mid

end

/-- On a whole directory every query is answered. -/
theorem exists_evaluateWithResolver (hwhole : Whole digest disk dir) :
    ∃ out, dir.evaluateWithResolver disk p sessionOf = some out := by
  have hread := get_ne_none hwhole
  obtain ⟨ancestries, hcollect⟩ := exists_collectAncestorOps hread p ∅
  have hcandidates : ∃ candidates, dir.candidateSet disk p.candidateRoot = some candidates := by
    cases p.candidateRoot with
    | some head => exact exists_walkBackLoop hread _ _ _ _
    | none =>
      obtain ⟨out, hout, -⟩ := listAll_spec hwhole
      exact ⟨out, hout⟩
  obtain ⟨candidates, hcandidates⟩ := hcandidates
  unfold evaluateWithResolver
  rw [hcollect, hcandidates]
  exact ⟨_, rfl⟩

/-- **Evaluation is exact.** Over every log whose records are filed under their own ids, loose or
packed, a query that is answered is answered with the records of the log it holds of, each once; it
is answered whenever the files belong together; and its JSON is read back as the query it was written
from. -/
theorem evaluateWithResolver_exact (hfiled : dir.Filed disk) (sessionOf : IntentId → Option String) (p : Predicate) :
    (∀ out, dir.evaluateWithResolver disk p sessionOf = some out → (out.map OperationRecord.opId).Nodup ∧
      ∀ record, record ∈ out ↔ dir.get disk record.opId = some (some record) ∧
        p.Holds (dir.parentsOf disk) sessionOf record) ∧
    (∀ digest, Whole digest disk dir → ∃ out, dir.evaluateWithResolver disk p sessionOf = some out) ∧
    Predicate.fromValue p.toValue = .ok p := by
  refine ⟨fun out h => ?_, fun _ hwhole => exists_evaluateWithResolver hwhole,
    Predicate.fromValue_toValue p⟩
  obtain ⟨ancestries, candidates, hcollect, hcandidates, rfl⟩ := evaluateWithResolver_eq_some h
  have htable := collectAncestorOps_collects (fun opId set hset => by simp at hset) hcollect
  obtain ⟨hnodup, hget, hall⟩ := @candidateSet_spec _ _ sessionOf p hfiled _ hcandidates
  have hmatch : ∀ record, dir.get disk record.opId = some (some record) →
      (OpsDir.matches record sessionOf ancestries p = true ↔
        p.Holds (dir.parentsOf disk) sessionOf record) :=
    fun record hr => matches_iff_holds hfiled htable.exact hr htable.has
  constructor
  · exact hnodup.sublist (List.filter_sublist.map _)
  · intro record
    rw [List.mem_filter]
    constructor
    · rintro ⟨hmem, hm⟩
      exact ⟨hget record hmem, (hmatch record (hget record hmem)).mp hm⟩
    · rintro ⟨hr, hholds⟩
      exact ⟨hall record hr hholds, (hmatch record hr).mpr hholds⟩

/-- Two packed operations, and a query that is answered from the ancestry of one of them. -/
theorem evaluateWithResolver_packedRun :
    ∃ out, (empty.run packDigest plainDisk packedRun).evaluateWithResolver plainDisk
        (.and [.not (.intent "i"), .or [.ancestorOf "b"], .ancestorOf "a"]) (fun _ => none) = some out ∧
      ∀ record, record ∈ out ↔ (empty.run packDigest plainDisk packedRun).get plainDisk record.opId =
            some (some record) ∧ Predicate.Holds ((empty.run packDigest plainDisk packedRun).parentsOf plainDisk)
            (fun _ => none) record (.and [.not (.intent "i"), .or [.ancestorOf "b"], .ancestorOf "a"]) := by
  have hwhole := (Sound.run packedRun sound_empty packedRun_meets).whole
  obtain ⟨hexact, hanswered, -⟩ := evaluateWithResolver_exact (filed_of_whole hwhole)
    (fun _ => none) (.and [.not (.intent "i"), .or [.ancestorOf "b"], .ancestorOf "a"])
  obtain ⟨out, hout⟩ := hanswered packDigest hwhole
  exact ⟨out, hout, (hexact out hout).2⟩

end Result

end OpsDir

end LexLang.Vcs
