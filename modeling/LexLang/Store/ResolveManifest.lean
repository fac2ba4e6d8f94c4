/-
# LexLang.Store.ResolveManifest — the loop that finds the manifest in force

`resolve_manifest_at` (`lex-store/src/files.rs`) finds the file set at an operation without recursion:
it keeps the operations to answer on a stack, the parents of those it has opened, and a memo of the
answers, which the caller may have begun. A record is looked for in memory first (`pre`), then read
from the log, and a read may fail. An index that is absent is a panic (`ResolveError.absentKey`).

`InForce` is the recursion along the parents. Over an acyclic log it has one solution,
`OpLog.manifestAt`, and the loop ends with it (`resolveManifestAt_exact`).
-/
import LexLang.Graph.Suspended
import LexLang.Store.Files
import LexLang.Vcs.DirWalk

namespace LexLang

open LexLang.Vcs LexLang.Graph
open List
open Std

/-! ## The loop -/

/-- The answers by operation. -/
abbrev Memo := ExtTreeMap OpId ManifestAt

/-- Why no manifest is returned: a read fails, or a map is indexed by a key that it does not have. -/
inductive ResolveError (ε : Type)
  | io (error : ε)
  | absentKey
  deriving DecidableEq

/-- `combine` of the entries for the parents, each indexed when it is needed. -/
def combineFrom (memo : Memo) : List OpId → Option ManifestAt
  | [] => some .absent
  | p :: parents => do
    let first ← memo[p]?
    let same ← parents.allM fun q => memo[q]?.map fun value => decide (value = first)
    pure (if same then first else .ambiguous)

/-- **The state of the loop**, the top of the stack first. -/
structure Resolving where
  memo : Memo
  parentsOf : ExtTreeMap OpId (List OpId)
  stack : List OpId

namespace Resolving

variable {ε : Type} (s : Resolving) (id : OpId)

/-- Answer the operation on top. -/
def settle (value : ManifestAt) : Resolving :=
  { s with memo := s.memo.insert id value, stack := s.stack.tail }

/-- Push the parents without an answer, or combine the answers of all. -/
def visit : Except (ResolveError ε) Resolving :=
  match s.parentsOf[id]? with
  | none => .error .absentKey
  | some parents =>
    let pending := parents.filter fun p => !s.memo.contains p
    if pending ≠ [] then .ok { s with stack := pending.reverse ++ s.stack }
    else
      match combineFrom s.memo parents with
      | none => .error .absentKey
      | some value => .ok (s.settle id value)

/-- Keep the parents of an operation. -/
def opened (parents : List OpId) : Resolving := { s with parentsOf := s.parentsOf.insert id parents }

variable (read : OpId → Except ε (Option OperationRecord)) (pre : ExtTreeMap OpId OperationRecord)

/-- A record, from memory or from the log. -/
def load : Except ε (Option OperationRecord) :=
  match pre[id]? with
  | some record => .ok (some record)
  | none => read id

/-- **One turn of the loop**, with `id` on top. -/
def step : Except (ResolveError ε) Resolving :=
  if s.memo.contains id then .ok { s with stack := s.stack.tail }
  else if s.parentsOf.contains id then s.visit id
  else
    match load id read pre with
    | .error e => .error (.io e)
    | .ok none => .ok (s.settle id .absent)
    | .ok (some record) =>
      match record.op.kind with
      | .setFiles manifest => .ok (s.settle id (.set manifest))
      | _ => (s.opened id record.op.parents).visit id

end Resolving

/-- What a call leaves: its result, and the memo. -/
structure Resolution (ε : Type) where
  result : Except (ResolveError ε) ManifestAt
  memo : Memo

section Loop

variable {ε : Type} (read : OpId → Except ε (Option OperationRecord)) (pre : ExtTreeMap OpId OperationRecord)
  (op : OpId)

/-- The result, once the stack is empty. -/
def Resolving.finish (s : Resolving) : Resolution ε where
  result :=
    match s.memo[op]? with
    | some value => .ok value
    | none => .error .absentKey
  memo := s.memo

/-- The loop, a unit of fuel a turn; `none` where it has not ended by then. -/
def resolveLoop : Nat → Resolving → Option (Resolution ε)
  | fuel, s =>
    match s.stack, fuel with
    | [], _ => some (s.finish op)
    | _ :: _, 0 => none
    | id :: _, fuel + 1 =>
      match s.step id read pre with
      | .error e => some ⟨.error e, s.memo⟩
      | .ok s' => resolveLoop fuel s'

/-- **Find the manifest in force at an operation.** -/
def resolveManifestAt (fuel : Nat) (memo : Memo) : Option (Resolution ε) :=
  resolveLoop read pre op fuel ⟨memo, ∅, [op]⟩

end Loop

/-! ## The recursion along the parents -/

/-- The operation has its file set from its parents: it is no `SetFiles`. -/
def Vcs.OperationRecord.Inherits (record : OperationRecord) : Prop :=
  ∀ manifest, record.op.kind ≠ .setFiles manifest

/-- **The manifest in force, by recursion.** -/
structure InForce (log : OpLog) (value : OpId → ManifestAt) : Prop where
  missing : ∀ id, log.get id = none → value id = .absent
  setFiles : ∀ id record manifest, log.get id = some record → record.op.kind = .setFiles manifest →
    value id = .set manifest
  root : ∀ id record, log.get id = some record → record.Inherits → record.op.parents = [] → value id = .absent
  agreed : ∀ id record v, log.get id = some record → record.Inherits → record.op.parents ≠ [] →
    (∀ p ∈ record.op.parents, value p = v) → value id = v
  differing : ∀ id record p q, log.get id = some record → record.Inherits →
    p ∈ record.op.parents → q ∈ record.op.parents → value p ≠ value q → value id = .ambiguous

theorem combine_of_forall {values : List ManifestAt} {v : ManifestAt} (hne : values ≠ [])
    (h : ∀ value ∈ values, value = v) : combine values = v := by
  cases values with
  | nil => exact absurd rfl hne
  | cons first rest =>
    obtain rfl := h first mem_cons_self
    show (if rest.all (· = first) then first else .ambiguous) = first
    rw [if_pos (all_eq_true.mpr fun value hvalue => decide_eq_true (h value (mem_cons_of_mem _ hvalue)))]

theorem combine_of_ne {values : List ManifestAt} {v w : ManifestAt} (hv : v ∈ values) (hw : w ∈ values)
    (hne : v ≠ w) : combine values = .ambiguous := by
  cases values with
  | nil => exact absurd hv not_mem_nil
  | cons first rest =>
    show (if rest.all (· = first) then first else .ambiguous) = .ambiguous
    rw [if_neg]
    intro hall
    have hsame : ∀ value ∈ first :: rest, value = first := by
      intro value hvalue
      rcases mem_cons.mp hvalue with rfl | hvalue
      · rfl
      · exact of_decide_eq_true (all_eq_true.mp hall value hvalue)
    exact hne ((hsame v hv).trans (hsame w hw).symm)

namespace InForce

variable {log : OpLog} {value value' : OpId → ManifestAt} {id : OpId} {record : OperationRecord}

theorem eq_combine (h : InForce log value) (hget : log.get id = some record) (hkind : record.Inherits) :
    value id = combine (record.op.parents.map value) := by
  by_cases hnil : record.op.parents = []
  · rw [h.root id record hget hkind hnil, hnil]
    rfl
  by_cases hsame : ∃ v, ∀ p ∈ record.op.parents, value p = v
  · obtain ⟨v, hv⟩ := hsame
    rw [h.agreed id record v hget hkind hnil hv]
    symm
    apply combine_of_forall
    · simpa using hnil
    · simpa using hv
  · obtain ⟨p, hp⟩ := exists_mem_of_ne_nil _ hnil
    obtain ⟨q, hq, hne⟩ : ∃ q ∈ record.op.parents, value q ≠ value p := by
      by_contra hall
      exact hsame ⟨value p, fun q hq => by_contra fun hne => hall ⟨q, hq, hne⟩⟩
    rw [h.differing id record q p hget hkind hq hp hne]
    exact (combine_of_ne (mem_map_of_mem hq) (mem_map_of_mem hp) hne).symm

/-- **The recursion has one solution at most.** -/
theorem unique (hac : log.Acyclic) (h : InForce log value) (h' : InForce log value') : value = value' := by
  obtain ⟨rank, hrank⟩ := Graph.Acyclic.exists_rank log.ids
    (fun _ h => OpLog.mem_ids.mpr (OpLog.parentsOf_ne_none.mp h)) hac
  funext id
  induction hn : rank id using Nat.strong_induction_on generalizing id with
  | _ n ih =>
    cases hget : log.get id with
    | none => rw [h.missing id hget, h'.missing id hget]
    | some record =>
      by_cases hset : ∃ manifest, record.op.kind = .setFiles manifest
      · obtain ⟨manifest, hkind⟩ := hset
        rw [h.setFiles id record manifest hget hkind, h'.setFiles id record manifest hget hkind]
      · have hkind : record.Inherits := fun manifest heq => hset ⟨manifest, heq⟩
        rw [h.eq_combine hget hkind, h'.eq_combine hget hkind]
        congr 1
        refine map_congr_left fun p hp => ?_
        exact ih (rank p) (hn ▸ hrank id p (OpLog.edge_iff.mpr ⟨record, hget, hp⟩)) p rfl

end InForce

/-- **`manifestAt` is the solution.** -/
theorem inForce_manifestAt {log : OpLog} (hac : log.Acyclic) : InForce log log.manifestAt := by
  have hcombine : ∀ id record, log.get id = some record → record.Inherits →
      log.manifestAt id = combine (record.op.parents.map log.manifestAt) := by
    intro id record hget hkind
    rw [OpLog.manifestAt_of_get hac hget]
    split
    · rename_i manifest heq
      exact absurd heq (hkind manifest)
    · rfl
  refine ⟨fun id hget => ?_, fun id record manifest hget hkind => OpLog.manifestAt_setFiles hget hkind, ?_, ?_, ?_⟩
  · rw [OpLog.manifestAt, OpLog.manifestWithin, hget]
  · intro id record hget hkind hnil
    rw [hcombine id record hget hkind, hnil]
    rfl
  · intro id record v hget hkind hne hsame
    rw [hcombine id record hget hkind]
    apply combine_of_forall
    · simpa using hne
    · simpa using hsame
  · intro id record p q hget hkind hp hq hne
    rw [hcombine id record hget hkind]
    exact combine_of_ne (mem_map_of_mem hp) (mem_map_of_mem hq) hne

/-! ## What each turn keeps -/

/-- Every entry of the memo is right. -/
def Memo.Right (value : OpId → ManifestAt) (memo : Memo) : Prop := ∀ id v, memo[id]? = some v → v = value id

/-- The records in memory are those of the log. -/
def Genuine (log : OpLog) (pre : ExtTreeMap OpId OperationRecord) : Prop :=
  ∀ id record, pre[id]? = some record → log.get id = some record

/-- A read gives what the log holds, or fails. -/
def Answers {ε : Type} (log : OpLog) (read : OpId → Except ε (Option OperationRecord)) : Prop :=
  ∀ id, read id = .ok (log.get id) ∨ ∃ e, read id = .error e

namespace Memo

variable {value : OpId → ManifestAt} {memo : Memo} {id : OpId}

theorem Right.insert (h : memo.Right value) (id : OpId) : Memo.Right value (memo.insert id (value id)) := by
  intro other v hv
  rw [ExtTreeMap.getElem?_insert] at hv
  split at hv
  · rename_i heq
    rw [← LawfulEqCmp.eq_of_compare heq]
    exact (Option.some.inj hv).symm
  · exact h other v hv

theorem Right.getElem? (h : memo.Right value) (hmem : id ∈ memo) : memo[id]? = some (value id) := by
  have hsome : memo[id]?.isSome := ExtTreeMap.isSome_getElem?_iff_mem.mpr hmem
  obtain ⟨v, hv⟩ := Option.isSome_iff_exists.mp hsome
  rw [hv, h id v hv]

/-- No index is absent once every parent has its entry. -/
theorem Right.combineFrom (h : memo.Right value) {parents : List OpId} (hmem : ∀ p ∈ parents, p ∈ memo) :
    combineFrom memo parents = some (combine (parents.map value)) := by
  have hall : ∀ (first : ManifestAt) (rest : List OpId), (∀ q ∈ rest, q ∈ memo) →
      (rest.allM fun q => memo[q]?.map fun v => decide (v = first)) =
        some ((rest.map value).all fun v => decide (v = first)) := by
    intro first rest
    induction rest with
    | nil => exact fun _ => rfl
    | cons q rest ih =>
      intro hrest
      rw [allM_cons, h.getElem? (hrest q mem_cons_self), List.map_cons, all_cons]
      show (if decide (value q = first) = true then _ else some false) = _
      rw [ih fun r hr => hrest r (mem_cons_of_mem _ hr)]
      split
      · rename_i heq
        rw [heq, Bool.true_and]
      · rename_i heq
        rw [Bool.eq_false_of_not_eq_true heq, Bool.false_and]
  cases parents with
  | nil => rfl
  | cons p parents =>
    show (memo[p]?.bind fun first =>
      (parents.allM fun q => memo[q]?.map fun v => decide (v = first)).bind fun same =>
        some (if same then first else .ambiguous)) = _
    rw [h.getElem? (hmem p mem_cons_self), Option.bind_some,
      hall (value p) parents fun q hq => hmem q (mem_cons_of_mem _ hq)]
    rfl

end Memo

/-- **What holds at the head of the loop.** -/
structure Resolving.Sound (log : OpLog) (value : OpId → ManifestAt) (op : OpId) (s : Resolving) : Prop where
  right : s.memo.Right value
  parents : ∀ id parents, s.parentsOf[id]? = some parents → ∃ record, log.get id = some record ∧
    record.op.parents = parents ∧ record.Inherits
  suspended : Suspended log.parentsOf {id | id ∈ s.parentsOf} {id | id ∈ s.memo} s.stack
  below : ∀ id ∈ s.stack, log.Reach op id
  target : op ∈ s.memo ∨ op ∈ s.stack

namespace Resolving

variable {ε : Type} {log : OpLog} {value : OpId → ManifestAt} {op id : OpId} {s : Resolving} {rest : List OpId}

/-- The turns that are left. -/
def cost (log : OpLog) (s : Resolving) : Nat := stackCost log.parentsOf log.ids s.parentsOf.keys.toFinset s.stack

/-- The top has its answer and goes. -/
theorem Sound.popped (h : s.Sound log value op) (hstack : s.stack = id :: rest) {memo : Memo}
    (hright : memo.Right value) (hkeeps : ∀ other ∈ s.memo, other ∈ memo) (hid : id ∈ memo) :
    Sound log value op { s with memo := memo, stack := s.stack.tail } ∧
      cost log { s with memo := memo, stack := s.stack.tail } < s.cost log := by
  have htail : s.stack.tail = rest := by rw [hstack, tail_cons]
  have hsuspended := h.suspended
  rw [hstack] at hsuspended
  refine ⟨⟨hright, h.parents, ?_, fun other hother => h.below other (mem_of_mem_tail hother), ?_⟩, ?_⟩
  · show Suspended _ _ _ s.stack.tail
    rw [htail]
    exact hsuspended.pop hkeeps hid
  · show op ∈ memo ∨ op ∈ s.stack.tail
    rw [htail]
    rcases h.target with hop | hop
    · exact .inl (hkeeps op hop)
    · rw [hstack] at hop
      rcases mem_cons.mp hop with rfl | hop
      · exact .inl hid
      · exact .inr hop
  · show stackCost _ _ _ s.stack.tail < stackCost _ _ _ s.stack
    rw [htail, hstack]
    exact stackCost_pop Finset.Subset.rfl

theorem Sound.settle (h : s.Sound log value op) (hstack : s.stack = id :: rest) :
    (s.settle id (value id)).Sound log value op ∧ (s.settle id (value id)).cost log < s.cost log := by
  apply h.popped hstack (h.right.insert id)
  · intro other hother
    exact ExtTreeMap.mem_insert.mpr (.inr hother)
  · exact ExtTreeMap.mem_insert_self

variable {parents : List OpId}

theorem mem_pending {memo : Memo} {p : OpId} :
    p ∈ parents.filter (fun p => !memo.contains p) ↔ p ∈ parents ∧ p ∉ memo := by
  rw [mem_filter, Bool.not_eq_true', Bool.eq_false_iff, Ne, ExtTreeMap.contains_iff_mem]

theorem mem_opened {other : OpId} :
    other ∈ (s.opened id parents).parentsOf ↔ other = id ∨ other ∈ s.parentsOf := by
  show other ∈ s.parentsOf.insert id parents ↔ _
  rw [ExtTreeMap.mem_insert, LawfulEqCmp.compare_eq_iff_eq, eq_comm]

/-- The top is opened: the parents without an answer lie above it. -/
theorem Sound.opened (h : s.Sound log value op) (hstack : s.stack = id :: rest) (hnew : id ∉ s.parentsOf)
    {record : OperationRecord} (hget : log.get id = some record) (hkind : record.Inherits) {pending : List OpId}
    (hpending : pending = record.op.parents.filter fun p => !s.memo.contains p) :
    Sound log value op { s.opened id record.op.parents with stack := pending.reverse ++ s.stack } ∧
      cost log { s.opened id record.op.parents with stack := pending.reverse ++ s.stack } < s.cost log := by
  have hedge : ∀ p, Edge log.parentsOf id p ↔ p ∈ record.op.parents := fun p =>
    edge_iff_of_some (by rw [OpLog.parentsOf, hget, Option.map_some])
  have hparents : ∀ p ∈ pending.reverse, p ∈ record.op.parents := by
    intro p hp
    rw [mem_reverse, hpending] at hp
    exact (mem_pending.mp hp).1
  have hopened : {other | other ∈ (s.opened id record.op.parents).parentsOf} = insert id {other | other ∈ s.parentsOf} :=
    Set.ext fun other => mem_opened
  refine ⟨⟨h.right, ?_, ?_, ?_, ?_⟩, ?_⟩
  · intro other parents hother
    have hother' : (s.parentsOf.insert id record.op.parents)[other]? = some parents := hother
    rw [ExtTreeMap.getElem?_insert] at hother'
    split at hother'
    · rename_i heq
      obtain rfl := LawfulEqCmp.eq_of_compare heq
      exact ⟨record, hget, Option.some.inj hother', hkind⟩
    · exact h.parents other parents hother'
  · show Suspended log.parentsOf {other | other ∈ (s.opened id record.op.parents).parentsOf} _ _
    rw [hopened, hstack]
    have hsuspended := h.suspended
    rw [hstack] at hsuspended
    apply hsuspended.push hnew
    · exact fun p hp => (hedge p).mpr (hparents p hp)
    · intro p hp
      by_cases hmem : p ∈ s.memo
      · exact .inl hmem
      · exact .inr (mem_reverse.mpr (hpending ▸ mem_pending.mpr ⟨(hedge p).mp hp, hmem⟩))
  · intro other hother
    rcases mem_append.mp hother with hother | hother
    · have hid : log.Reach op id := h.below id (hstack ▸ mem_cons_self)
      exact hid.tail ((hedge other).mpr (hparents other hother))
    · exact h.below other hother
  · exact h.target.imp_right fun hop => mem_append_right _ hop
  · have hkeys : (s.opened id record.op.parents).parentsOf.keys.toFinset = insert id s.parentsOf.keys.toFinset := by
      ext other
      rw [mem_toFinset, ExtTreeMap.mem_keys, mem_opened, Finset.mem_insert, mem_toFinset, ExtTreeMap.mem_keys]
    show stackCost _ _ (s.opened id record.op.parents).parentsOf.keys.toFinset _ < stackCost _ _ _ s.stack
    rw [hkeys, hstack]
    apply stackCost_push
    · exact OpLog.mem_ids.mpr (by simp [hget])
    · simpa using hnew
    · rw [OpLog.parentsOf, hget, Option.map_some]
    · rw [length_reverse, hpending]
      exact length_filter_le _ _

/-- The parents of the top have their answers: it is answered, and no index is absent. -/
theorem Sound.visit (hvalue : InForce log value) (h : s.Sound log value op)
    (hparents : s.parentsOf[id]? = some parents) (hdone : ∀ p ∈ parents, p ∈ s.memo) :
    (s.visit id : Except (ResolveError ε) Resolving) = .ok (s.settle id (value id)) := by
  obtain ⟨record, hget, rfl, hkind⟩ := h.parents id parents hparents
  have hpending : (record.op.parents.filter fun p => !s.memo.contains p) = [] := by
    rw [eq_nil_iff_forall_not_mem]
    intro p hp
    exact (mem_pending.mp hp).2 (hdone p (mem_pending.mp hp).1)
  unfold Resolving.visit
  rw [hparents]
  dsimp only
  rw [hpending, if_neg (not_not_intro rfl), h.right.combineFrom hdone, hvalue.eq_combine hget hkind]

variable {read : OpId → Except ε (Option OperationRecord)} {pre : ExtTreeMap OpId OperationRecord}

theorem load_cases (hread : Answers log read) (hpre : Genuine log pre) (id : OpId) :
    load id read pre = .ok (log.get id) ∨ ∃ e, read id = .error e ∧ load id read pre = .error e := by
  unfold load
  cases hmemory : pre[id]? with
  | some record => exact .inl (congrArg Except.ok (hpre id record hmemory).symm)
  | none =>
    rcases hread id with hok | ⟨e, he⟩
    · exact .inl hok
    · exact .inr ⟨e, he, he⟩

/-- **A turn keeps what holds, and fewer turns are left**, unless the read fails. -/
theorem Sound.step (hac : log.Acyclic) (hvalue : InForce log value) (hread : Answers log read)
    (hpre : Genuine log pre) (h : s.Sound log value op) (hstack : s.stack = id :: rest) :
    (∃ s', s.step id read pre = .ok s' ∧ s'.Sound log value op ∧ s'.cost log < s.cost log) ∨
      ∃ e, read id = .error e ∧ s.step id read pre = .error (.io e) := by
  unfold Resolving.step
  by_cases hmemo : id ∈ s.memo
  · -- answered since it was pushed
    rw [if_pos (ExtTreeMap.contains_iff_mem.mpr hmemo)]
    exact .inl ⟨_, rfl, h.popped hstack h.right (fun _ hother => hother) hmemo⟩
  rw [if_neg fun hcontains => hmemo (ExtTreeMap.contains_iff_mem.mp hcontains)]
  by_cases hopen : id ∈ s.parentsOf
  · -- back at an operation: its parents have been answered
    rw [if_pos (ExtTreeMap.contains_iff_mem.mpr hopen)]
    obtain ⟨parents, hparents⟩ := Option.isSome_iff_exists.mp (ExtTreeMap.isSome_getElem?_iff_mem.mpr hopen)
    have hsuspended := h.suspended
    rw [hstack] at hsuspended
    have hdone : ∀ p ∈ parents, p ∈ s.memo := by
      obtain ⟨record, hget, rfl, -⟩ := h.parents id parents hparents
      exact fun p hp => hsuspended.ready hac hopen hmemo p (OpLog.edge_iff.mpr ⟨record, hget, hp⟩)
    exact .inl ⟨_, h.visit hvalue hparents hdone, h.settle hstack⟩
  rw [if_neg fun hcontains => hopen (ExtTreeMap.contains_iff_mem.mp hcontains)]
  rcases load_cases hread hpre id with hload | ⟨e, he, hload⟩
  · rw [hload]
    cases hget : log.get id with
    | none =>
      rw [← hvalue.missing id hget]
      exact .inl ⟨_, rfl, h.settle hstack⟩
    | some record =>
      dsimp only
      split
      · rename_i manifest hkind
        rw [← hvalue.setFiles id record manifest hget hkind]
        exact .inl ⟨_, rfl, h.settle hstack⟩
      · rename_i hkind
        obtain ⟨hsound, hcost⟩ := h.opened hstack hopen hget hkind rfl
        have hparents : (s.opened id record.op.parents).parentsOf[id]? = some record.op.parents :=
          ExtTreeMap.getElem?_insert_self
        by_cases hnil : (record.op.parents.filter fun p => !s.memo.contains p) = []
        · rw [hnil] at hsound hcost
          have hdone : ∀ p ∈ record.op.parents, p ∈ s.memo := by
            intro p hp
            by_contra hmem
            exact not_mem_nil (hnil ▸ mem_pending.mpr ⟨hp, hmem⟩)
          obtain ⟨hsettled, hless⟩ := hsound.settle hstack
          exact .inl ⟨_, hsound.visit hvalue hparents hdone, hsettled, hless.trans hcost⟩
        · refine .inl ⟨_, ?_, hsound, hcost⟩
          unfold Resolving.visit
          rw [hparents]
          exact if_pos hnil
  · rw [hload]
    exact .inr ⟨e, he, rfl⟩

theorem sound_start {memo : Memo} (hmemo : memo.Right value) : Sound log value op ⟨memo, ∅, [op]⟩ where
  right := hmemo
  parents id parents h := by
    rw [ExtTreeMap.getElem?_empty] at h
    cases h
  suspended := by
    intro id hid
    exact absurd hid ExtTreeMap.not_mem_empty
  below id hid := by
    obtain rfl := mem_singleton.mp hid
    exact .refl
  target := .inr (mem_singleton_self op)

/-- With the stack empty, the operation has its answer. -/
theorem Sound.finish (h : s.Sound log value op) (hstack : s.stack = []) :
    (s.finish op : Resolution ε) = ⟨.ok (value op), s.memo⟩ := by
  have hop : op ∈ s.memo := h.target.resolve_right (hstack ▸ not_mem_nil)
  unfold Resolving.finish
  rw [h.right.getElem? hop]

end Resolving

/-! ## The run -/

section Run

variable {ε : Type} {log : OpLog} {value : OpId → ManifestAt} {read : OpId → Except ε (Option OperationRecord)}
  {pre : ExtTreeMap OpId OperationRecord} {op : OpId}

/-- **A right end**: the manifest in force, or a read that failed; the memo is right in any case. -/
structure Resolution.Exact (log : OpLog) (value : OpId → ManifestAt) (read : OpId → Except ε (Option OperationRecord))
    (op : OpId) (found : Resolution ε) : Prop where
  memo : found.memo.Right value
  result : found.result = .ok (value op) ∨
    ∃ id e, log.Reach op id ∧ read id = .error e ∧ found.result = .error (.io e)

/-- **The loop ends, and ends right.** -/
theorem resolveLoop_exact (hac : log.Acyclic) (hvalue : InForce log value) (hread : Answers log read)
    (hpre : Genuine log pre) : ∀ (fuel : Nat) (s : Resolving), s.Sound log value op → s.cost log ≤ fuel →
      ∃ found, resolveLoop read pre op fuel s = some found ∧ found.Exact log value read op := by
  intro fuel
  induction fuel with
  | zero =>
    intro s h hfuel
    have hstack : s.stack = [] := by
      have hcost : s.stack.length ≤ s.cost log := Nat.le_add_right _ _
      exact length_eq_zero_iff.mp (by omega)
    refine ⟨s.finish op, ?_, h.finish hstack ▸ ⟨h.right, .inl rfl⟩⟩
    unfold resolveLoop
    rw [hstack]
  | succ fuel ih =>
    intro s h hfuel
    cases hstack : s.stack with
    | nil =>
      refine ⟨s.finish op, ?_, h.finish hstack ▸ ⟨h.right, .inl rfl⟩⟩
      unfold resolveLoop
      rw [hstack]
    | cons id rest =>
      unfold resolveLoop
      rw [hstack]
      dsimp only
      rcases h.step hac hvalue hread hpre hstack with ⟨s', hstep, hsound, hless⟩ | ⟨e, he, hstep⟩
      · rw [hstep]
        exact ih s' hsound (by omega)
      · rw [hstep]
        exact ⟨_, rfl, h.right, .inr ⟨id, e, h.below id (hstack ▸ mem_cons_self), he, rfl⟩⟩

/-- Fuel for the loop: what a walk takes, and one turn more for each operation. -/
def Vcs.OpLog.resolveFuel (log : OpLog) : Nat := log.walkFuel + log.ids.card

theorem cost_start_le (log : OpLog) (memo : Memo) (op : OpId) :
    Resolving.cost log ⟨memo, ∅, [op]⟩ ≤ log.resolveFuel := by
  have hwalk := log.walkCost_le_walkFuel op
  have hkeys : (∅ : ExtTreeMap OpId (List OpId)).keys.toFinset = ∅ := by
    simp
  show stackCost _ _ (∅ : ExtTreeMap OpId (List OpId)).keys.toFinset [op] ≤ _
  unfold walkCost at hwalk
  unfold stackCost Vcs.OpLog.resolveFuel
  rw [hkeys, Finset.sdiff_empty, Finset.sum_add_distrib, ← Finset.card_eq_sum_ones]
  rw [Finset.sdiff_empty] at hwalk
  omega

/-- **The manifest at an operation is what the recursion along the parents says**: over an acyclic log
the recursion has exactly one solution, and the loop, begun with any right memo and any records of the
log in memory, ends with it, unless a read fails. No index is absent, and the memo stays right. -/
theorem resolveManifestAt_exact {log : OpLog} (hac : log.Acyclic) :
    (∃! value, InForce log value) ∧
      ∀ value, InForce log value → ∀ {ε : Type} (read : OpId → Except ε (Option OperationRecord))
        (pre : ExtTreeMap OpId OperationRecord) (op : OpId) (memo : Memo) (fuel : Nat),
        Answers log read → Genuine log pre → memo.Right value → log.resolveFuel ≤ fuel →
        ∃ found, resolveManifestAt read pre op fuel memo = some found ∧ found.Exact log value read op := by
  refine ⟨⟨log.manifestAt, inForce_manifestAt hac, fun value h => h.unique hac (inForce_manifestAt hac)⟩, ?_⟩
  intro value hvalue ε read pre op memo fuel hread hpre hmemo hfuel
  exact resolveLoop_exact hac hvalue hread hpre fuel _ (Resolving.sound_start hmemo)
    ((cost_start_le log memo op).trans hfuel)

end Run

/-- A record of the ops directory, or an I/O error. -/
def Vcs.OpsDir.read (disk : Disk) (dir : OpsDir) (id : OpId) : Except Unit (Option OperationRecord) :=
  match dir.get disk id with
  | some found => .ok found
  | none => .error ()

/-- The reads of a directory answer for the log that it stores. -/
theorem answers_read {disk : Disk} {dir : OpsDir} (hfiled : dir.Filed disk) : Answers (dir.log disk) (dir.read disk) := by
  intro id
  unfold Vcs.OpsDir.read
  cases hget : dir.get disk id with
  | none => exact .inr ⟨(), rfl⟩
  | some found =>
    refine .inl (congrArg Except.ok ?_)
    cases found with
    | none => exact (OpsDir.get_log_eq_none hfiled hget).symm
    | some record => exact ((OpsDir.get_log hfiled).mpr hget).symm

/-- **Files survive maintenance**: after any puts, repacks and evicts, each whole or cut short where that
does no harm, the manifest at an operation is found from the files, and is that of the log they store. -/
theorem manifest_of_run {digest : Digest} {disk : Disk} (actions : List OpsDir.Action)
    (hmeet : OpsDir.AllMeet digest disk .empty actions)
    (hac : ((OpsDir.empty.run digest disk actions).log disk).Acyclic) (op : OpId) :
    ∃ found, resolveManifestAt ((OpsDir.empty.run digest disk actions).read disk) ∅ op
        ((OpsDir.empty.run digest disk actions).log disk).resolveFuel ∅ = some found ∧
      found.result = .ok (((OpsDir.empty.run digest disk actions).log disk).manifestAt op) := by
  have hwhole := (OpsDir.Sound.run actions OpsDir.sound_empty hmeet).whole
  obtain ⟨found, hfound, -, hresult⟩ := resolveLoop_exact hac (inForce_manifestAt hac)
    (answers_read (OpsDir.filed_of_whole hwhole)) (show Genuine _ ∅ from fun _ _ h => by simp at h) _ ⟨∅, ∅, [op]⟩
    (Resolving.sound_start fun _ _ h => by simp at h) (cost_start_le _ ∅ op)
  refine ⟨found, hfound, hresult.resolve_right ?_⟩
  rintro ⟨id, e, -, hread, -⟩
  obtain ⟨record, hget, -⟩ := OpsDir.get_spec hwhole id
  rw [OpsDir.read, hget] at hread
  cases hread

/-- The files of a packed run. -/
theorem manifest_of_run_packedRun : let dir := OpsDir.empty.run OpsDir.packDigest OpsDir.plainDisk OpsDir.packedRun
    ∃ found, resolveManifestAt (dir.read OpsDir.plainDisk) ∅ "a" (dir.log OpsDir.plainDisk).resolveFuel ∅ = some found ∧
      found.result = .ok ((dir.log OpsDir.plainDisk).manifestAt "a") :=
  manifest_of_run _ OpsDir.packedRun_meets (OpLog.acyclic_ofRecords (by decide) (by decide)) "a"

/-- One line on the root sets the files, the other does not, and a merge. -/
def filesLog : OpLog := OpLog.ofRecords
  [⟨"g", .v1, .new (.addType "f" "s1" none) [], .create "f" "s1"⟩,
    ⟨"a", .v1, .new (.setFiles "m1") ["g"], .filesOnly⟩,
    ⟨"b", .v1, .new (.addType "k" "s2" none) ["g"], .create "k" "s2"⟩,
    ⟨"m", .v1, .new (.merge 0) ["a", "b"], .merge ∅⟩]

/-- The merge is ambiguous, whatever is known of the lines. -/
theorem resolveManifestAt_exact_filesLog : ∃ found,
    resolveManifestAt (fun id => (.ok (filesLog.get id) : Except Unit _)) ∅ "m" 9 ∅ = some found ∧
      found.result = .ok .ambiguous := by
  have hac : filesLog.Acyclic := OpLog.acyclic_ofRecords (by decide) (by decide)
  obtain ⟨found, hfound, -, hresult⟩ := (resolveManifestAt_exact hac).2 filesLog.manifestAt (inForce_manifestAt hac)
    (fun id => (.ok (filesLog.get id) : Except Unit _)) ∅ "m" ∅ 9 (fun _ => .inl rfl)
    (fun _ _ h => by simp at h) (fun _ _ h => by simp at h) (by decide)
  refine ⟨found, hfound, ?_⟩
  rcases hresult with hvalue | ⟨_, _, -, hread, -⟩
  · rw [hvalue, show filesLog.manifestAt "m" = .ambiguous by decide]
  · cases hread

end LexLang
