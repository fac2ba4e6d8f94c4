/-
# LexLang.Vcs.Merge — the three-way merge of two heads, sig by sig

`merge` (`lex-vcs/src/merge.rs`) lists each side's operations since a common ancestor, groups them
by the sigs they touch, and takes the value a side gives a sig from the side's last listed operation
on it. `outcomesNameHeads_iff` says exactly when this is what the replay of the head's history has
for every sig the merge reports.

They part in three ways. A merge operation pins sigs but touches none, so the listing does not see
it. The listing reverses a breadth-first walk, which is not a topological order, so what it takes for
the last operation on a sig may be an ancestor of the one that decides it. And an operation that
moves a sig is read, on the side it moves away from, as binding that side too.
-/
import LexLang.Vcs.Replay

namespace LexLang.Vcs

open List Option Std Std.ExtTreeMap

/-! ## Outcomes -/

/-- How two sides conflict over a sig. -/
inductive ConflictKind
  | modifyModify
  | modifyDelete
  | deleteModify
  | addAdd
  deriving DecidableEq

/-- What the merge says about one sig. -/
inductive MergeOutcome
  /-- Both sides converged on the same operation. -/
  | both (sigId : SigId) (stageId : Option StageId)
  /-- Only `src` touched it. -/
  | src (sigId : SigId) (stageId : Option StageId)
  /-- Only `dst` touched it. -/
  | dst (sigId : SigId) (stageId : Option StageId)
  /-- Both touched it, with different operations. -/
  | conflict (sigId : SigId) (kind : ConflictKind) (base src dst : Option StageId)
  deriving DecidableEq

/-- A common ancestor and the outcomes since. -/
structure MergeOutput where
  lca : Option OpId
  outcomes : List MergeOutcome

/-! ## Grouping by sig -/

/-- The sigs an operation touches. -/
def touchedSigs : OperationKind → List SigId
  | .modifyBody sigId _ _ _ _ toSigId
  | .changeEffectSig sigId _ _ _ _ _ _ toSigId
  | .modifyType sigId _ _ toSigId =>
    match toSigId with
    | some toSig => if toSig ≠ sigId then [sigId, toSig] else [sigId]
    | none => [sigId]
  | .addFunction sigId _ _ _ _ => [sigId]
  | .removeFunction sigId _ => [sigId]
  | .addType sigId _ _ => [sigId]
  | .removeType sigId _ => [sigId]
  | .replaceMatchArm sigId _ _ _ _ _ _ => [sigId]
  | .renameLocal sigId _ _ _ _ _ _ _ => [sigId]
  | .inlineLet sigId _ _ _ _ _ _ => [sigId]
  | .promote sigId _ _ _ _ _ _ => [sigId]
  | .renameSymbol fromSig toSig _ _ => [fromSig, toSig]
  | .addImport _ _ _ => []
  | .removeImport _ _ => []
  | .merge _ => []
  | .candidate _ _ => []
  | .setFiles _ => []

/-- File a record under one sig. -/
def pushGroup (record : OperationRecord)
    (groups : ExtTreeMap SigId (List OperationRecord)) (sig : SigId) :
    ExtTreeMap SigId (List OperationRecord) :=
  groups.alter sig fun group => some (group.getD [] ++ [record])

/-- **The operations on each sig**, oldest first: `ops` lists them newest first. -/
def groupBySig (ops : List OperationRecord) : ExtTreeMap SigId (List OperationRecord) :=
  (ops.foldl (fun groups record => (touchedSigs record.op.kind).foldl (pushGroup record) groups)
    ∅).map fun _ group => group.reverse

/-- What one operation does to the value `latestStage` holds for a sig: nothing, or a new value. -/
def readsStage (sig : SigId) (record : OperationRecord) : Option (Option StageId) :=
  match record.op.kind with
  | .renameSymbol fromSig toSig bodyStageId _ =>
    if sig = fromSig then some none
    else if sig = toSig then some (some bodyStageId)
    else none
  | _ =>
    match record.produces with
    | .create _ stageId => some (some stageId)
    | .replace _ _ toStage => some (some toStage)
    | .remove _ _ => some none
    | .rename _ _ bodyStageId => some (some bodyStageId)
    | .importOnly | .filesOnly | .merge _ => none

/-- **The stage a group leaves**: each operation's value over the one before. -/
def latestStage (sig : SigId) (group : List OperationRecord) : Option StageId :=
  group.foldl (fun current record => (readsStage sig record).getD current) none

/-! ## The merge -/

/-- The kind of a conflict, from what the sides and their common ancestor bind. Shapes that should
not occur count as two modifications (the source asserts in debug builds only). -/
def classify (src dst : Option StageId) (base : HeadMap) (sig : SigId) : ConflictKind :=
  match base.contains sig, src.isSome, dst.isSome with
  | false, true, true => .addAdd
  | true, true, true => .modifyModify
  | true, true, false => .modifyDelete
  | true, false, true => .deleteModify
  | _, _, _ => .modifyModify

/-- A side's operations since the common ancestor. -/
def sideOps (log : OpLog) (head lca : Option OpId) : List OperationRecord :=
  match head with
  | some h => log.opsSince h lca
  | none => []

/-- The id of a group's last operation. -/
def lastOpId (group : List OperationRecord) : OpId :=
  (group.getLast?.map OperationRecord.opId).getD ""

/-- The outcome of one sig, from the groups of the two sides. -/
def outcomeOf (base : HeadMap) (sig : SigId) :
    Option (List OperationRecord) → Option (List OperationRecord) → Option MergeOutcome
  | some srcGroup, some dstGroup =>
    let srcStage := latestStage sig srcGroup
    let dstStage := latestStage sig dstGroup
    if lastOpId srcGroup = lastOpId dstGroup then some (.both sig srcStage)
    else some (.conflict sig (classify srcStage dstStage base sig) base[sig]? srcStage dstStage)
  | some srcGroup, none => some (.src sig (latestStage sig srcGroup))
  | none, some dstGroup => some (.dst sig (latestStage sig dstGroup))
  | none, none => none

/-- The common ancestor the merge works from. -/
def mergeBase (log : OpLog) (srcHead dstHead : Option OpId) : Option OpId :=
  match srcHead, dstHead with
  | some s, some d => log.lca s d
  | _, _ => none

/-- **The three-way merge** of two heads. -/
def merge (log : OpLog) (srcHead dstHead : Option OpId) : MergeOutput :=
  let lca := mergeBase log srcHead dstHead
  let srcBySig := groupBySig (sideOps log srcHead lca)
  let dstBySig := groupBySig (sideOps log dstHead lca)
  let lcaHead := log.replayHead lca
  let sigs := sortedSet (srcBySig.keys ++ dstBySig.keys)
  { lca, outcomes := sigs.filterMap fun sig => outcomeOf lcaHead sig srcBySig[sig]? dstBySig[sig]? }

/-! ## What the groups hold -/

/-- The operations of a listing that touch a sig, once for every time they touch it. -/
def touching (sig : SigId) (ops : List OperationRecord) : List OperationRecord :=
  ops.flatMap fun record => replicate ((touchedSigs record.op.kind).count sig) record

/-- A group with more records, when there are any. -/
def extendGroup (group : Option (List OperationRecord)) (more : List OperationRecord) :
    Option (List OperationRecord) :=
  if more = [] then group else some (group.getD [] ++ more)

theorem extendGroup_append (group : Option (List OperationRecord)) (first second : List OperationRecord) :
    extendGroup (extendGroup group first) second = extendGroup group (first ++ second) := by
  unfold extendGroup
  by_cases hfirst : first = []
  · simp [hfirst]
  · by_cases hsecond : second = []
    · simp [hsecond]
    · simp [hfirst, hsecond]

theorem getElem?_pushGroup (record : OperationRecord)
    (groups : ExtTreeMap SigId (List OperationRecord)) (key sig : SigId) : (pushGroup record groups key)[sig]? =
      extendGroup groups[sig]? (replicate ([key].count sig) record) := by
  unfold pushGroup extendGroup
  rw [getElem?_alter]
  by_cases hkey : key = sig
  · simp [hkey]
  · simp [hkey]

theorem getElem?_foldl_pushGroup (record : OperationRecord) (sig : SigId) : ∀ (sigs : List SigId)
    (groups : ExtTreeMap SigId (List OperationRecord)),
    (sigs.foldl (pushGroup record) groups)[sig]? =
      extendGroup groups[sig]? (replicate (sigs.count sig) record)
  | [], groups => by simp [extendGroup]
  | key :: sigs, groups => by
    rw [foldl_cons, getElem?_foldl_pushGroup record sig sigs, getElem?_pushGroup,
      extendGroup_append, replicate_append_replicate, ← count_append]
    rfl

theorem getElem?_foldl_groups (sig : SigId) : ∀ (ops : List OperationRecord)
    (groups : ExtTreeMap SigId (List OperationRecord)),
    (ops.foldl (fun groups record => (touchedSigs record.op.kind).foldl (pushGroup record) groups)
      groups)[sig]? = extendGroup groups[sig]? (touching sig ops)
  | [], groups => by simp [extendGroup, touching]
  | record :: ops, groups => by
    rw [foldl_cons, getElem?_foldl_groups sig ops, getElem?_foldl_pushGroup, extendGroup_append]
    rfl

/-- **A sig's group** is the reversed listing of what touches it. -/
theorem getElem?_groupBySig (ops : List OperationRecord) (sig : SigId) : (groupBySig ops)[sig]? =
      if touching sig ops = [] then none else some (touching sig ops).reverse := by
  unfold groupBySig
  rw [Std.ExtTreeMap.getElem?_map, getElem?_foldl_groups]
  unfold extendGroup
  split <;> simp

theorem latestStage_eq (sig : SigId) (group : List OperationRecord) :
    latestStage sig group = (group.reverse.findSome? (readsStage sig)).getD none := by
  have hfold : ∀ (group : List OperationRecord) (start : Option StageId),
      group.foldl (fun current record => (readsStage sig record).getD current) start =
        (group.reverse.findSome? (readsStage sig)).getD start := by
    intro group
    induction group with
    | nil => exact fun _ => rfl
    | cons record group ih =>
      intro start
      rw [foldl_cons, ih, reverse_cons, findSome?_append]
      cases group.reverse.findSome? (readsStage sig) with
      | some value => rfl
      | none =>
        simp only [none_or, getD_none, findSome?_cons, findSome?_nil]
        cases readsStage sig record <;> rfl
  exact hfold group none

/-- **The outcomes are those of the sigs some side touches.** -/
theorem mem_outcomes_iff {log : OpLog} {srcHead dstHead : Option OpId} {o : MergeOutcome} :
    o ∈ (merge log srcHead dstHead).outcomes ↔ ∃ sig, outcomeOf (log.replayHead (mergeBase log srcHead dstHead)) sig
        (groupBySig (sideOps log srcHead (mergeBase log srcHead dstHead)))[sig]?
        (groupBySig (sideOps log dstHead (mergeBase log srcHead dstHead)))[sig]? = some o := by
  unfold merge
  simp only [List.mem_filterMap]
  constructor
  · rintro ⟨sig, _, h⟩
    exact ⟨sig, h⟩
  · rintro ⟨sig, h⟩
    refine ⟨sig, ?_, h⟩
    rw [mem_sortedSet, mem_append, Std.ExtTreeMap.mem_keys, Std.ExtTreeMap.mem_keys,
      ← isSome_getElem?_iff_mem, ← isSome_getElem?_iff_mem]
    revert h
    cases (groupBySig (sideOps log srcHead (mergeBase log srcHead dstHead)))[sig]? with
    | some _ => simp
    | none =>
      cases (groupBySig (sideOps log dstHead (mergeBase log srcHead dstHead)))[sig]? with
      | some _ => simp
      | none => simp [outcomeOf]

/-! ## When an outcome names its side's value -/

section Names

variable (log : OpLog)

/-- **The claim on `merge`**: every one-sided outcome carries the stage its side's head gives the sig,
and every conflict carries both sides' stages. -/
def OutcomesNameHeads (srcHead dstHead : Option OpId) : Prop :=
  ∀ o ∈ (merge log srcHead dstHead).outcomes,
    match o with
    | .both _ _ => True
    | .src sig stage => stage = (log.replayHead srcHead)[sig]?
    | .dst sig stage => stage = (log.replayHead dstHead)[sig]?
    | .conflict sig _ _ src dst =>
      src = (log.replayHead srcHead)[sig]? ∧ dst = (log.replayHead dstHead)[sig]?

/-- The operation that decides a sig at a head: the last replayed one that writes it. -/
def decider (head : Option OpId) (sig : SigId) : Option OperationRecord :=
  match head with
  | some h => (log.walkForward h none).reverse.find? fun r => (r.produces.writes sig).isSome
  | none => none

/-- The operation the merge takes a side's value from: the first of the newest-first listing that
touches the sig and says something about it. -/
def taken (head lca : Option OpId) (sig : SigId) : Option OperationRecord :=
  (touching sig (sideOps log head lca)).find? fun r => (readsStage sig r).isSome

/-- **The listing and the replay agree on a sig of one side.** Either the operation taken is the one
that decides, and it is read as it replays: it does not move the sig away while being read as binding
it. Or it is another one (the decider is a merge pinning the sig, or is listed earlier than an
operation it replays after), and happens to bind the sig to the very stage the decider does. -/
def ListedAsReplayed (head lca : Option OpId) (sig : SigId) : Prop :=
  (taken log head lca sig = decider log head sig ∧
    ∀ r ∈ decider log head sig, readsStage sig r = r.produces.writes sig) ∨
  (taken log head lca sig ≠ decider log head sig ∧
    ((taken log head lca sig).bind (readsStage sig)).join =
      ((decider log head sig).bind fun r => r.produces.writes sig).join)

/-- A side touches a sig since the common ancestor. -/
def Touches (head lca : Option OpId) (sig : SigId) : Prop :=
  touching sig (sideOps log head lca) ≠ []

/-- Both sides touch the sig, and the newest listed operation on it is the same. -/
def Converged (srcHead dstHead lca : Option OpId) (sig : SigId) : Prop :=
  Touches log srcHead lca sig ∧ Touches log dstHead lca sig ∧
    lastOpId (touching sig (sideOps log srcHead lca)).reverse =
      lastOpId (touching sig (sideOps log dstHead lca)).reverse

variable {log}

theorem findSome?_eq_find?_bind {f : OperationRecord → Option (Option StageId)} :
    ∀ records : List OperationRecord,
      records.findSome? f = (records.find? fun r => (f r).isSome).bind f
  | [] => rfl
  | r :: records => by
    rw [findSome?_cons, find?_cons, findSome?_eq_find?_bind records]
    cases h : f r with
    | none => simp
    | some value => simp [h]

theorem latestStage_group (head lca : Option OpId) (sig : SigId) :
    latestStage sig (touching sig (sideOps log head lca)).reverse =
      ((taken log head lca sig).bind (readsStage sig)).join := by
  rw [latestStage_eq, reverse_reverse, findSome?_eq_find?_bind]
  unfold taken
  cases ((touching sig (sideOps log head lca)).find? fun r => (readsStage sig r).isSome).bind
    (readsStage sig) <;> rfl

theorem getElem?_replayHead (head : Option OpId) (sig : SigId) : (log.replayHead head)[sig]? =
      ((decider log head sig).bind fun r => r.produces.writes sig).join := by
  cases head with
  | none => simp [OpLog.replayHead, decider]
  | some h =>
    show (log.replay h)[sig]? = _
    unfold OpLog.replay decider
    rw [getElem?_replayOn]
    unfold lastWrite
    rw [findSome?_eq_find?_bind]
    cases ((log.walkForward h none).reverse.find? fun r => (r.produces.writes sig).isSome).bind
      fun r => r.produces.writes sig with
    | none => simp
    | some value => rfl

/-- **One side, one sig**: the reported stage is the head's exactly when listing and replay agree. -/
theorem latestStage_eq_replay_iff (head lca : Option OpId) (sig : SigId) :
    latestStage sig (touching sig (sideOps log head lca)).reverse = (log.replayHead head)[sig]? ↔
      ListedAsReplayed log head lca sig := by
  rw [latestStage_group, getElem?_replayHead]
  unfold ListedAsReplayed
  by_cases hsame : taken log head lca sig = decider log head sig
  · rw [or_iff_left fun h => h.1 hsame, and_iff_right hsame, hsame]
    cases hd : decider log head sig with
    | none => simp
    | some r =>
      have hreads : (readsStage sig r).isSome = true := by
        have htaken := hsame.trans hd
        unfold taken at htaken
        have hsome := find?_some htaken
        exact hsome
      have hwrites : (r.produces.writes sig).isSome = true := by
        unfold decider at hd
        cases head with
        | none => cases hd
        | some h =>
          have hsome := find?_some hd
          exact hsome
      obtain ⟨a, ha⟩ := isSome_iff_exists.mp hreads
      obtain ⟨b, hb⟩ := isSome_iff_exists.mp hwrites
      simp [ha, hb]
  · rw [or_iff_right fun h => hsame h.1, and_iff_right hsame]

end Names

/-- A sig moved by a modification: `f` becomes `f2` on top of its first operation. -/
def movedSigLog : OpLog := OpLog.ofRecords
  [⟨"g", .v1, .new (.addType "f" "s1" none) [], .create "f" "s1"⟩,
    ⟨"m", .v1, .new (.modifyType "f" "s1" "s2" (some "f2")) ["g"], .rename "f" "f2" "s2"⟩]

/-- What a kind of conflict says of the three values. -/
def ConflictKind.Describes : ConflictKind → (base src dst : Option StageId) → Prop
  | .modifyModify, base, src, dst => base ≠ none ∧ src ≠ none ∧ dst ≠ none
  | .modifyDelete, base, src, dst => base ≠ none ∧ src ≠ none ∧ dst = none
  | .deleteModify, base, src, dst => base ≠ none ∧ src = none ∧ dst ≠ none
  | .addAdd, base, src, dst => base = none ∧ src ≠ none ∧ dst ≠ none

/-- Of three values some kind describes, `classify` gives that kind. -/
theorem classify_describes {src dst : Option StageId} {base : HeadMap} {sig : SigId} :
    (classify src dst base sig = .modifyModify ∨ (classify src dst base sig).Describes base[sig]? src dst) ∧
    ((∃ kind : ConflictKind, kind.Describes base[sig]? src dst) →
      (classify src dst base sig).Describes base[sig]? src dst) := by
  have hbase : base.contains sig = base[sig]?.isSome := contains_eq_isSome_getElem?
  unfold classify
  rw [hbase]
  cases base[sig]? <;> cases src <;> cases dst <;> refine ⟨by simp [ConflictKind.Describes], ?_⟩
  all_goals
    rintro ⟨kind, hkind⟩
    revert hkind
    cases kind <;> simp [ConflictKind.Describes]

theorem outcomeOf_eq_conflict_iff {base : HeadMap} {sig sig' : SigId} {kind : ConflictKind}
    {b s d : Option StageId} {srcGroup dstGroup : Option (List OperationRecord)} :
    outcomeOf base sig' srcGroup dstGroup = some (.conflict sig kind b s d) ↔
      ∃ gs ∈ srcGroup, ∃ gd ∈ dstGroup, lastOpId gs ≠ lastOpId gd ∧ sig' = sig ∧
        b = base[sig]? ∧ s = latestStage sig gs ∧ d = latestStage sig gd ∧ kind = classify s d base sig := by
  cases srcGroup with
  | none => cases dstGroup <;> simp [outcomeOf]
  | some gs =>
    cases dstGroup with
    | none => simp [outcomeOf]
    | some gd =>
      simp only [outcomeOf, mem_def, some.injEq, exists_eq_left']
      split_ifs with hlast
      · simp [hlast]
      · simp only [some.injEq, MergeOutcome.conflict.injEq]
        constructor
        · rintro ⟨rfl, rfl, rfl, rfl, rfl⟩
          exact ⟨hlast, rfl, rfl, rfl, rfl, rfl⟩
        · rintro ⟨-, rfl, rfl, rfl, rfl, rfl⟩
          exact ⟨rfl, rfl, rfl, rfl, rfl⟩

theorem mem_groupBySig {head lca : Option OpId} {sig : SigId} {group : List OperationRecord} :
    group ∈ (groupBySig (sideOps log head lca))[sig]? ↔
      Touches log head lca sig ∧ group = (touching sig (sideOps log head lca)).reverse := by
  rw [getElem?_groupBySig]
  unfold Touches
  split_ifs with h
  · simp [h]
  · simp [h, eq_comm]

/-- Every conflict is described by its kind, and is about two values that differ. -/
def ConflictsDescribed (log : OpLog) (srcHead dstHead : Option OpId) : Prop :=
  ∀ sig kind base src dst, MergeOutcome.conflict sig kind base src dst ∈
    (merge log srcHead dstHead).outcomes → kind.Describes base src dst ∧ src ≠ dst

/-- Two branches that make the same changes: `f` to one stage, and `g` away. -/
def sameChangesLog : OpLog := OpLog.ofRecords
  [⟨"1", .v1, .new (.addType "f" "s1" none) [], .create "f" "s1"⟩,
    ⟨"2", .v1, .new (.addType "g" "s2" none) ["1"], .create "g" "s2"⟩,
    ⟨"s1", .v1, .new (.modifyType "f" "s1" "s3" none) ["2"], .replace "f" "s1" "s3"⟩,
    ⟨"s2", .v1, .new (.removeType "g" "s2") ["s1"], .remove "g" "s2"⟩,
    ⟨"d1", .v1, .new (.removeType "g" "s2") ["2"], .remove "g" "s2"⟩,
    ⟨"d2", .v1, .new (.modifyType "f" "s1" "s3" none) ["d1"], .replace "f" "s1" "s3"⟩]

theorem OpLog.contains_walkBack_iff {log : OpLog} {a : OpId} {record : OperationRecord}
    (hget : log.get record.opId = some record) :
    ((log.walkBack a none).map OperationRecord.opId).contains record.opId = true ↔ log.Reach a record.opId := by
  rw [List.contains_iff_mem, map_opId_walkBack, Graph.mem_walk_iff (walk_backIds log a), parentsOf_ne_none, hget]
  simp

/-- The base is lowest where there is one line below `b`: what comes right before it is not shared. -/
theorem OpLog.reach_of_lca {log : OpLog} {a b c : OpId} (hlca : log.lca a b = some c)
    (hline : ∀ id record, log.Reach b id → log.get id = some record → record.op.parents.length ≤ 1)
    {d : OpId} (hd : log.get d ≠ none) (had : log.Reach a d) (hbd : log.Reach b d) : log.Reach c d := by
  obtain ⟨record, hfind, rfl⟩ := map_eq_some_iff.mp hlca
  obtain ⟨-, before, after, hsplit, hbefore⟩ := find?_eq_some_iff_append.mp hfind
  have hids := map_opId_walkBack log b
  rw [hsplit, map_append, map_cons] at hids
  rcases (walk_backIds log b).pushed hids.symm with hhead | ⟨p, hbef, hedge⟩
  · rwa [mem_singleton.mp hhead]
  obtain ⟨earlier, hearlier, rfl⟩ := mem_map.mp hbef
  have hin : earlier ∈ log.walkBack b none := by simp [hsplit, hearlier]
  obtain ⟨hget, hbe⟩ := mem_walkBack_iff.mp hin
  have hnot : ¬ log.Reach a earlier.opId := fun h => by
    have := hbefore earlier hearlier
    rw [(contains_walkBack_iff hget).mpr h] at this
    cases this
  have hnext : ∀ {x y z}, log.Reach b x → Graph.Edge log.parentsOf x y → Graph.Edge log.parentsOf x z → y = z := by
    intro x y z hx hxy hxz
    obtain ⟨r, hr, hy⟩ := edge_iff.mp hxy
    obtain ⟨r', hr', hz⟩ := edge_iff.mp hxz
    obtain rfl := some.inj (hr.symm.trans hr')
    have hone := hline x r hx hr
    rcases hps : r.op.parents with _ | ⟨p, _ | ⟨q, rest⟩⟩ <;> simp_all
  rcases Graph.reach_comparable hnext hbe hbd with h | h
  · rcases h.cases_head with rfl | ⟨q, hq, hqd⟩
    · exact absurd had hnot
    · exact hnext hbe hq hedge ▸ hqd
  · exact absurd (had.trans h) hnot

/-- **The base of a merge**: two histories that share an operation have one, which they share. Where no
operation of `b`'s history has a second parent, all that they share is in the history of the base, and no
operation is listed for both sides. -/
theorem OpLog.lca_spec (log : OpLog) (a b : OpId) :
    (log.lca a b = none ↔ ∀ c, log.get c ≠ none → log.Reach a c → ¬ log.Reach b c) ∧
    ∀ c, log.lca a b = some c → log.get c ≠ none ∧ log.Reach a c ∧ log.Reach b c ∧
      ((∀ id record, log.Reach b id → log.get id = some record → record.op.parents.length ≤ 1) →
        (∀ d, log.get d ≠ none → log.Reach a d → log.Reach b d → log.Reach c d) ∧
        ∀ record ∈ log.opsSince a (some c), record ∉ log.opsSince b (some c)) := by
  constructor
  · unfold lca
    rw [map_eq_none_iff, find?_eq_none]
    constructor
    · intro h c hc ha hb
      obtain ⟨record, hget⟩ := ne_none_iff_exists'.mp hc
      obtain rfl := get_opId hget
      exact h record (mem_walkBack_iff.mpr ⟨hget, hb⟩) ((contains_walkBack_iff hget).mpr ha)
    · intro h record hrecord ha
      obtain ⟨hget, hb⟩ := mem_walkBack_iff.mp hrecord
      exact h _ (by simp [hget]) ((contains_walkBack_iff hget).mp ha) hb
  · intro c hlca
    obtain ⟨record, hfind, rfl⟩ := map_eq_some_iff.mp hlca
    obtain ⟨hget, hb⟩ := mem_walkBack_iff.mp (mem_of_find?_eq_some hfind)
    obtain ⟨hp, -⟩ := find?_eq_some_iff_append.mp hfind
    refine ⟨by simp [hget], (contains_walkBack_iff hget).mp hp, hb, fun hline => ?_⟩
    refine ⟨fun d => reach_of_lca hlca hline, fun shared ha hb => ?_⟩
    obtain ⟨ha, hnew⟩ := mem_filter.mp ha
    obtain ⟨hget, ha⟩ := mem_walkBack_iff.mp ha
    have hold := reach_of_lca hlca hline (by simp [hget]) ha (mem_walkBack_iff.mp (mem_filter.mp hb).1).2
    simp only [(contains_walkBack_iff hget).mpr hold] at hnew
    cases hnew

/-- A record as far as the walks see it. -/
def walked (opId : OpId) (parents : List OpId) : OperationRecord := ⟨opId, .v1, .new (.merge 0) parents, .merge ∅⟩

-- past a merge the base need not be lowest: the walk comes to `r` by the shorter side, before it comes to `s1`
example : (OpLog.ofRecords [walked "r" [], walked "s1" ["r"], walked "s2" ["s1"], walked "s3" ["s2"],
    walked "t" ["r"], walked "m" ["s3", "t"]]).lca "s1" "m" = some "r" := by decide +kernel

end LexLang.Vcs
