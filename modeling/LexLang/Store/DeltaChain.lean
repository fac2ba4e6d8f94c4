/-
# LexLang.Store.DeltaChain — stages that are stored as deltas

`persist_stage_bytes`, `pick_delta_base` and `read_stage_canonical_bytes` (`lex-store/src/store.rs`). A stage is
stored in full, or as a delta against an earlier stage of its signature: the last one to have come into the
lifecycle that is not tombstoned. A file is never written again, so that a chain of deltas leads to older and
older files (`Chain`).
-/
import LexLang.Store.Delta
import LexLang.Store.StageIndex

namespace LexLang.Delta

open LexLang.Vcs LexLang.StageIndex
open List Option

/-- **The lifecycles of a store, and the files of its stages.** -/
structure DeltaStore where
  stages : StageStore
  -- `<stage_id>.ast.json`
  ast : SigId → StageId → Option (List UInt8)
  -- `<stage_id>.delta.json`
  delta : SigId → StageId → Option StageDelta

inductive ReadError
  | unknownStage (stageId : StageId)
  | invalidData (stageId : StageId) (e : DeltaError)

/-! ## Reading -/

section Read

variable (checks : Bool) (s : DeltaStore) (sigId : SigId)

/-- The bytes of a stage, with so many calls on the stack; `none` where there are more, or `apply` panics. -/
def read_stage_canonical_bytes : Nat → StageId → Option (Except ReadError (List UInt8))
  | 0, _ => none
  | depth + 1, stageId =>
    match s.ast sigId stageId with
    | some bytes => some (.ok bytes)
    | none =>
      match s.delta sigId stageId with
      | none => some (.error (.unknownStage stageId))
      | some delta =>
        match read_stage_canonical_bytes depth delta.baseStageId with
        | none => none
        | some (.error e) => some (.error e)
        | some (.ok base) =>
          match apply checks base delta with
          | none => none
          | some (.error e) => some (.error (.invalidData stageId e))
          | some (.ok bytes) => some (.ok bytes)

def delta_chain_length (stageId : StageId) : Nat :=
  match s.ast sigId stageId with
  | some _ => 0
  | none =>
    match s.delta sigId stageId with
    | some delta => delta.chainLength
    | none => 0

/-! ## Publishing -/

/-- The stage that a new one is compared with, and the length of its chain. -/
def pick_delta_base (newStageId : StageId) : Option (StageId × Nat) :=
  let life := s.stages.readLifecycle sigId
  let candidates := (life.transitions.map Transition.stageId).eraseDups.filter fun stageId =>
    stageId != newStageId && life.statusOf stageId != some .tombstone
  candidates.reverse.head?.map fun base => (base, delta_chain_length s sigId base)

def DeltaStore.writeAst (stageId : StageId) (bytes : List UInt8) : DeltaStore :=
  { s with ast := Function.update s.ast sigId (Function.update (s.ast sigId) stageId (some bytes)) }

def DeltaStore.writeDelta (stageId : StageId) (delta : StageDelta) : DeltaStore :=
  { s with delta := Function.update s.delta sigId (Function.update (s.delta sigId) stageId (some delta)) }

/-- Store the bytes of a new stage, with `depth` calls for the chain of its base. -/
def persist_stage_bytes (depth : Nat) (stageId : StageId) (newBytes : List UInt8) :
    Option (Except ReadError DeltaStore) :=
  match pick_delta_base s sigId stageId with
  | none => some (.ok (s.writeAst sigId stageId newBytes))
  | some (baseStageId, baseChainLength) =>
    match read_stage_canonical_bytes checks s sigId depth baseStageId with
    | none => none
    | some (.error e) => some (.error e)
    | some (.ok base) =>
      let (prefixLen, suffixLen, middle) := splice base newBytes
      let chainLength := baseChainLength + 1
      if is_worth_encoding middle.length newBytes.length chainLength then
        some (.ok (s.writeDelta sigId stageId ⟨baseStageId, chainLength, prefixLen, suffixLen, Ast.hex middle⟩))
      else some (.ok (s.writeAst sigId stageId newBytes))

/-- The stage has a file. -/
def DeltaStore.stored (stageId : StageId) : Bool := (s.ast sigId stageId).isSome || (s.delta sigId stageId).isSome

/-- **Publish a stage**: its file first, then its lifecycle. -/
def publish (depth : Nat) (sigId : SigDir) (stageId : StageId) (bytes : Bytes) (now : Nat) (atOnce : Bool) :
    DeltaStore :=
  let listed (s : DeltaStore) : DeltaStore := { s with stages := s.stages.publish sigId stageId now atOnce }
  if s.stored sigId stageId then listed s
  else
    match persist_stage_bytes checks s sigId depth stageId bytes with
    | some (.ok s) => listed s
    -- nothing has been written
    | _ => s

end Read

/-! ## Runs -/

/-- What touches the lifecycles, and is no publish. -/
def Unpublishing (action : StageIndex.Action) : Prop :=
  match action with
  | .publish .. => False
  | _ => True

inductive Action
  | publish (sigId : SigDir) (stageId : StageId) (bytes : Bytes) (now : Nat) (atOnce : Bool)
  | other (action : StageIndex.Action) (h : Unpublishing action)

def step (checks : Bool) (depth : Nat) (s : DeltaStore) : Action → DeltaStore
  | .publish sigId stageId bytes now atOnce => Delta.publish checks s depth sigId stageId bytes now atOnce
  | .other action _ => { s with stages := StageIndex.step s.stages action }

def run (checks : Bool) (depth : Nat) (actions : List Action) (s : DeltaStore) : DeltaStore :=
  actions.foldl (step checks depth) s

def DeltaStore.empty : DeltaStore := ⟨.empty, fun _ _ => none, fun _ _ => none⟩

/-- **What was written for a stage**: the bytes of its first publish. -/
def wrote (actions : List Action) (sigId : SigId) (stageId : StageId) : Option (List UInt8) :=
  actions.findSome? fun action =>
    match action with
    | .publish sigId' stageId' bytes _ _ => if sigId'.1 = sigId ∧ stageId' = stageId then some bytes.1 else none
    | .other .. => none

/-! ## Chains -/

/-- **The bytes of a stage lie so many deltas away** from those of a file. -/
inductive Chain (s : DeltaStore) (sigId : SigId) : StageId → Nat → Bytes → Prop
  | full {stageId : StageId} {bytes : Bytes} (hast : s.ast sigId stageId = some bytes.1) :
      Chain s sigId stageId 0 bytes
  | delta {stageId : StageId} {n : Nat} {base bytes : Bytes} {delta : StageDelta}
      (hast : s.ast sigId stageId = none) (hdelta : s.delta sigId stageId = some delta)
      (hbase : Chain s sigId delta.baseStageId n base) (hlength : delta.chainLength = n + 1)
      (happly : ∀ checks, apply checks base delta = some (.ok bytes.1)) : Chain s sigId stageId (n + 1) bytes

section Chain

variable {checks : Bool} {s t : DeltaStore} {sigId : SigId} {stageId : StageId} {n : Nat} {bytes : Bytes}

theorem Chain.read (h : Chain s sigId stageId n bytes) (checks : Bool) (spare : Nat) :
    read_stage_canonical_bytes checks s sigId (n + 1 + spare) stageId = some (.ok bytes.1) := by
  induction h with
  | @full stageId bytes hast =>
    rw [show 0 + 1 + spare = spare + 1 by omega, read_stage_canonical_bytes, hast]
  | @delta stageId n base bytes delta hast hdelta hbase hlength happly ih =>
    rw [show n + 1 + 1 + spare = n + 1 + spare + 1 by omega, read_stage_canonical_bytes, hast, hdelta]
    dsimp only
    rw [ih]
    dsimp only
    rw [happly]

theorem Chain.length_eq (h : Chain s sigId stageId n bytes) : delta_chain_length s sigId stageId = n := by
  unfold delta_chain_length
  cases h with
  | full hast => rw [hast]
  | delta hast hdelta hbase hlength happly => rw [hast, hdelta, ← hlength]

theorem Chain.stored (h : Chain s sigId stageId n bytes) : s.stored sigId stageId = true := by
  unfold DeltaStore.stored
  cases h with
  | full hast => rw [hast, isSome_some, Bool.true_or]
  | delta hast hdelta hbase hlength happly => rw [hdelta, isSome_some, Bool.or_true]

/-- Files are only added. -/
structure Grows (s t : DeltaStore) : Prop where
  ast (sigId : SigId) (stageId : StageId) (h : s.stored sigId stageId = true) : t.ast sigId stageId = s.ast sigId stageId
  delta (sigId : SigId) (stageId : StageId) (h : s.stored sigId stageId = true) :
    t.delta sigId stageId = s.delta sigId stageId

/-- **A chain stays as it is** when files are added. -/
theorem Chain.grows (h : Chain s sigId stageId n bytes) (hgrows : Grows s t) : Chain t sigId stageId n bytes := by
  induction h with
  | full hast => exact .full ((hgrows.ast _ _ (Chain.full hast).stored).trans hast)
  | delta hast hdelta hbase hlength happly ih =>
    have hstored := (Chain.delta hast hdelta hbase hlength happly).stored
    exact .delta ((hgrows.ast _ _ hstored).trans hast) ((hgrows.delta _ _ hstored).trans hdelta) ih hlength happly

end Chain

/-! ## What a publish writes -/

section Publish

variable {checks : Bool} {s t : DeltaStore} {sigId : SigId} {stageId : StageId} {spare : Nat} {bytes : Bytes}

theorem pick_delta_base_some {newStageId : StageId} {length : Nat}
    (h : pick_delta_base s sigId newStageId = some (stageId, length)) :
    (s.stages.readLifecycle sigId).lists stageId = true ∧ length = delta_chain_length s sigId stageId := by
  unfold pick_delta_base at h
  dsimp only at h
  obtain ⟨base, hbase, heq⟩ := map_eq_some_iff.mp h
  obtain ⟨rfl, rfl⟩ := Prod.mk.inj heq
  refine ⟨?_, rfl⟩
  have hmem := mem_of_mem_head? hbase
  rw [mem_reverse, mem_filter, mem_eraseDups] at hmem
  obtain ⟨transition, htransition, rfl⟩ := mem_map.mp hmem.1
  exact any_eq_true.mpr ⟨transition, htransition, beq_self_eq_true _⟩

theorem ast_writeAst (sigId' : SigId) (stageId' : StageId) (b : List UInt8) :
    (s.writeAst sigId stageId b).ast sigId' stageId' =
      if sigId' = sigId ∧ stageId' = stageId then some b else s.ast sigId' stageId' := by
  unfold DeltaStore.writeAst
  by_cases hsig : sigId' = sigId
  · subst hsig
    by_cases hstage : stageId' = stageId
    · subst hstage
      simp
    · simp [hstage]
  · simp [hsig]

theorem delta_writeDelta (sigId' : SigId) (stageId' : StageId) (d : StageDelta) :
    (s.writeDelta sigId stageId d).delta sigId' stageId' =
      if sigId' = sigId ∧ stageId' = stageId then some d else s.delta sigId' stageId' := by
  unfold DeltaStore.writeDelta
  by_cases hsig : sigId' = sigId
  · subst hsig
    by_cases hstage : stageId' = stageId
    · subst hstage
      simp
    · simp [hstage]
  · simp [hsig]

/-- A stage has one file. -/
def DeltaStore.Single (s : DeltaStore) : Prop :=
  ∀ sigId stageId, (s.delta sigId stageId).isSome = true → s.ast sigId stageId = none

/-- **What a publish adds**: the file of its stage, which reads back as its bytes. -/
structure Adds (s t : DeltaStore) (sigId : SigId) (stageId : StageId) (bytes : Bytes) : Prop where
  stages : t.stages = s.stages
  grows : Grows s t
  chain : ∃ n ≤ deltaChainCap, Chain t sigId stageId n bytes
  stored (sigId' : SigId) (stageId' : StageId) (h : t.stored sigId' stageId' = true) :
    s.stored sigId' stageId' = true ∨ sigId' = sigId ∧ stageId' = stageId
  single (h : s.Single) : t.Single

variable (hnew : s.stored sigId stageId = false)
include hnew

theorem not_stored : s.ast sigId stageId = none ∧ s.delta sigId stageId = none := by
  unfold DeltaStore.stored at hnew
  rw [Bool.or_eq_false_iff, isSome_eq_false_iff, isSome_eq_false_iff, isNone_iff_eq_none,
    isNone_iff_eq_none] at hnew
  exact hnew

theorem not_both_of_stored {sigId' : SigId} {stageId' : StageId}
    (h : s.stored sigId' stageId' = true) : ¬ (sigId' = sigId ∧ stageId' = stageId) := by
  rintro ⟨rfl, rfl⟩
  exact nomatch hnew.symm.trans h

theorem adds_writeAst : Adds s (s.writeAst sigId stageId bytes) sigId stageId bytes where
  stages := rfl
  grows := by
    refine ⟨fun sigId' stageId' h => ?_, fun _ _ _ => rfl⟩
    rw [ast_writeAst, if_neg (not_both_of_stored hnew h)]
  chain := by
    refine ⟨0, Nat.zero_le _, .full ?_⟩
    rw [ast_writeAst, if_pos ⟨rfl, rfl⟩]
  stored sigId' stageId' h := by
    by_cases hsame : sigId' = sigId ∧ stageId' = stageId
    · exact .inr hsame
    · left
      unfold DeltaStore.stored at h ⊢
      rw [ast_writeAst, if_neg hsame] at h
      exact h
  single h sigId' stageId' hdelta := by
    have hnone := h sigId' stageId' hdelta
    rw [ast_writeAst, if_neg, hnone]
    rintro ⟨rfl, rfl⟩
    change (s.delta sigId' stageId').isSome = true at hdelta
    rw [(not_stored hnew).2] at hdelta
    exact nomatch hdelta

theorem adds_writeDelta {base : Bytes} {baseStageId : StageId} {n : Nat}
    (hbase : Chain s sigId baseStageId n base) (hcap : n + 1 ≤ deltaChainCap) :
    Adds s (s.writeDelta sigId stageId (deltaOf baseStageId (n + 1) base bytes)) sigId stageId bytes := by
  have hgrows : Grows s (s.writeDelta sigId stageId (deltaOf baseStageId (n + 1) base bytes)) := by
    refine ⟨fun _ _ _ => rfl, fun sigId' stageId' h => ?_⟩
    rw [delta_writeDelta, if_neg (not_both_of_stored hnew h)]
  refine ⟨rfl, hgrows, ⟨n + 1, hcap, ?_⟩, fun sigId' stageId' h => ?_, fun h sigId' stageId' hdelta => ?_⟩
  · refine .delta (not_stored hnew).1 ?_ (hbase.grows hgrows) rfl fun checks => apply_splice checks _ _ base bytes.1
    rw [delta_writeDelta, if_pos ⟨rfl, rfl⟩]
  · by_cases hsame : sigId' = sigId ∧ stageId' = stageId
    · exact .inr hsame
    · left
      unfold DeltaStore.stored at h ⊢
      rw [delta_writeDelta, if_neg hsame] at h
      exact h
  · by_cases hsame : sigId' = sigId ∧ stageId' = stageId
    · obtain ⟨rfl, rfl⟩ := hsame
      exact (not_stored hnew).1
    · rw [delta_writeDelta, if_neg hsame] at hdelta
      exact h sigId' stageId' hdelta

/-- **A new stage is stored**, where those of the lifecycle are. -/
theorem persist_spec (hlisted : ∀ base, (s.stages.readLifecycle sigId).lists base = true →
      ∃ n ≤ deltaChainCap, ∃ bytes, Chain s sigId base n bytes) :
    ∃ t, persist_stage_bytes checks s sigId (deltaChainCap + 1 + spare) stageId bytes = some (.ok t) ∧
      Adds s t sigId stageId bytes := by
  unfold persist_stage_bytes
  cases hpick : pick_delta_base s sigId stageId with
  | none => exact ⟨_, rfl, adds_writeAst hnew⟩
  | some picked =>
    obtain ⟨baseStageId, baseChainLength⟩ := picked
    obtain ⟨hbase, rfl⟩ := pick_delta_base_some hpick
    obtain ⟨n, hn, base, hchain⟩ := hlisted baseStageId hbase
    have hread := hchain.read checks (deltaChainCap - n + spare)
    rw [show n + 1 + (deltaChainCap - n + spare) = deltaChainCap + 1 + spare by omega] at hread
    dsimp only
    rw [hread, hchain.length_eq]
    dsimp only
    split
    · rename_i hworth
      have hcap : n + 1 ≤ deltaChainCap := by
        unfold is_worth_encoding at hworth
        by_contra hover
        rw [if_pos (by omega)] at hworth
        exact nomatch hworth
      exact ⟨_, rfl, adds_writeDelta hnew hchain hcap⟩
    · exact ⟨_, rfl, adds_writeAst hnew⟩

end Publish

/-! ## Whole runs -/

section Runs

variable {checks : Bool} {s : DeltaStore} {spare : Nat} {actions : List Action}

theorem wrote_concat (actions : List Action) (action : Action) (sigId : SigId) (stageId : StageId) :
    wrote (actions ++ [action]) sigId stageId = (wrote actions sigId stageId).or (wrote [action] sigId stageId) := by
  unfold wrote
  rw [findSome?_append]

theorem wrote_publish (sigId : SigDir) (stageId : StageId) (bytes : Bytes) (now : Nat) (atOnce : Bool)
    (sigId' : SigId) (stageId' : StageId) : wrote [.publish sigId stageId bytes now atOnce] sigId' stageId' =
      if sigId.1 = sigId' ∧ stageId = stageId' then some bytes.1 else none := by
  unfold wrote
  rw [findSome?_cons]
  split
  · rename_i h
    exact h.symm
  · rename_i h
    exact h.symm

/-- **The files of a run**: what was written has its chain, and what is stored or listed was written. -/
structure Kept (actions : List Action) (s : DeltaStore) : Prop where
  chains (sigId : SigId) (stageId : StageId) (b : List UInt8) (h : wrote actions sigId stageId = some b) :
    ∃ n ≤ deltaChainCap, ∃ bytes : Bytes, bytes.1 = b ∧ Chain s sigId stageId n bytes
  stored (sigId : SigId) (stageId : StageId) (h : s.stored sigId stageId = true) :
    (wrote actions sigId stageId).isSome = true
  listed (sigId : SigId) (stageId : StageId) (h : (s.stages.readLifecycle sigId).lists stageId = true) :
    s.stored sigId stageId = true
  single : s.Single

variable {stageId : StageId}

theorem Kept.chain_of_listed (h : Kept actions s) {sigId : SigId}
    (hlists : (s.stages.readLifecycle sigId).lists stageId = true) :
    ∃ n ≤ deltaChainCap, ∃ bytes, Chain s sigId stageId n bytes := by
  obtain ⟨b, hb⟩ := isSome_iff_exists.mp (h.stored _ _ (h.listed _ _ hlists))
  obtain ⟨n, hn, bytes, -, hchain⟩ := h.chains _ _ _ hb
  exact ⟨n, hn, bytes, hchain⟩

theorem lists_of_publish {stages : StageStore} {sigId : SigDir} {now : Nat} {atOnce : Bool}
    {sigId' : SigId} {stageId' : StageId}
    (h : ((stages.publish sigId stageId now atOnce).readLifecycle sigId').lists stageId' = true) :
    (stages.readLifecycle sigId').lists stageId' = true ∨ sigId' = sigId ∧ stageId' = stageId := by
  cases hlists : (stages.readLifecycle sigId).lists stageId with
  | true =>
    unfold StageStore.publish at h
    rw [if_pos hlists] at h
    exact .inl h
  | false => exact (lists_publish hlists now atOnce sigId' stageId').mp h

/-- No other step lists a stage. -/
theorem sameOwners_step (stages : StageStore) {action : StageIndex.Action} (h : Unpublishing action) :
    SameOwners stages (StageIndex.step stages action) := by
  cases action with
  | publish => exact h.elim
  | activate stageId now => exact (quiet_activate stages stageId now).owners
  | «deprecate» stageId now reason => exact (quiet_moveTo stages _ _ stageId now _).owners
  | tombstone stageId now => exact (quiet_moveTo stages _ _ stageId now _).owners
  | lookup stageId => exact (quiet_lookupLifecycle stages stageId).owners
  | lookupBulk | rebuild | crash => exact fun _ _ => rfl
  | append n =>
    intro sigId stageId
    show ((stages.append n).readLifecycle sigId).lists stageId = _
    unfold StageStore.append
    split
    · rfl
    · rfl

/-- A publish that writes no file. -/
theorem Kept.relisted (h : Kept actions s) {sigId : SigDir} (bytes : Bytes) {now : Nat}
    {atOnce : Bool} (hstored : s.stored sigId stageId = true) :
    Kept (actions ++ [Action.publish sigId stageId bytes now atOnce])
      { s with stages := s.stages.publish sigId stageId now atOnce } := by
  have hwrote : ∀ sigId' stageId', wrote (actions ++ [Action.publish sigId stageId bytes now atOnce]) sigId' stageId' =
      wrote actions sigId' stageId' := by
    intro sigId' stageId'
    rw [wrote_concat, wrote_publish]
    split
    · rename_i hsame
      obtain ⟨rfl, rfl⟩ := hsame
      obtain ⟨b, hb⟩ := isSome_iff_exists.mp (h.stored _ _ hstored)
      rw [hb]
      rfl
    · exact or_none
  refine ⟨fun sigId' stageId' b hb => ?_, fun sigId' stageId' hs => ?_, fun sigId' stageId' hl => ?_, h.single⟩
  · rw [hwrote] at hb
    obtain ⟨n, hn, bytes, hbytes, hchain⟩ := h.chains _ _ _ hb
    exact ⟨n, hn, bytes, hbytes, hchain.grows ⟨fun _ _ _ => rfl, fun _ _ _ => rfl⟩⟩
  · rw [hwrote]
    exact h.stored _ _ hs
  · rcases lists_of_publish hl with hl | ⟨rfl, rfl⟩
    · exact h.listed _ _ hl
    · exact hstored

/-- A publish that writes a file. -/
theorem Kept.added (h : Kept actions s) {t : DeltaStore} {sigId : SigDir} {bytes : Bytes}
    {now : Nat} {atOnce : Bool} (hnew : s.stored sigId stageId = false) (hadds : Adds s t sigId stageId bytes) :
    Kept (actions ++ [Action.publish sigId stageId bytes now atOnce])
      { t with stages := t.stages.publish sigId stageId now atOnce } := by
  have hgrows : Grows s { t with stages := t.stages.publish sigId stageId now atOnce } :=
    ⟨hadds.grows.ast, hadds.grows.delta⟩
  obtain ⟨n, hn, hchain⟩ := hadds.chain
  have hchain : Chain { t with stages := t.stages.publish sigId stageId now atOnce } sigId stageId n bytes :=
    hchain.grows ⟨fun _ _ _ => rfl, fun _ _ _ => rfl⟩
  refine ⟨fun sigId' stageId' b hb => ?_, fun sigId' stageId' hs => ?_, fun sigId' stageId' hl => ?_,
    hadds.single h.single⟩
  · rw [wrote_concat, wrote_publish] at hb
    cases hbefore : wrote actions sigId' stageId' with
    | some before =>
      rw [hbefore] at hb
      obtain rfl : before = b := some.inj hb
      obtain ⟨n', hn', bytes', hbytes', hchain'⟩ := h.chains _ _ _ hbefore
      exact ⟨n', hn', bytes', hbytes', hchain'.grows hgrows⟩
    | none =>
      rw [hbefore, none_or] at hb
      split at hb
      · rename_i hsame
        obtain ⟨rfl, rfl⟩ := hsame
        exact ⟨n, hn, bytes, some.inj hb, hchain⟩
      · exact nomatch hb
  · rw [wrote_concat, wrote_publish]
    rcases hadds.stored _ _ hs with hs | ⟨rfl, rfl⟩
    · obtain ⟨b, hb⟩ := isSome_iff_exists.mp (h.stored _ _ hs)
      rw [hb]
      rfl
    · rw [if_pos ⟨rfl, rfl⟩, isSome_or, isSome_some, Bool.or_true]
  · have hstored : ∀ sigId' stageId', s.stored sigId' stageId' = true → t.stored sigId' stageId' = true := by
      intro sigId' stageId' hs
      unfold DeltaStore.stored
      rw [hadds.grows.ast _ _ hs, hadds.grows.delta _ _ hs]
      exact hs
    rcases lists_of_publish hl with hl | ⟨rfl, rfl⟩
    · rw [hadds.stages] at hl
      exact hstored _ _ (h.listed _ _ hl)
    · exact hchain.stored

/-- **A step keeps what was written.** -/
theorem Kept.step (h : Kept actions s) (action : Action) :
    Kept (actions ++ [action]) (step checks (deltaChainCap + 1 + spare) s action) := by
  cases action with
  | publish sigId stageId bytes now atOnce =>
    show Kept _ (Delta.publish checks s (deltaChainCap + 1 + spare) sigId stageId bytes now atOnce)
    unfold Delta.publish
    dsimp only
    cases hstored : s.stored sigId stageId with
    | true => exact h.relisted bytes hstored
    | false =>
      obtain ⟨t, hpersist, hadds⟩ := @persist_spec checks s sigId stageId spare bytes hstored fun base hbase =>
        h.chain_of_listed hbase
      rw [hpersist]
      exact h.added hstored hadds
  | other action hquiet =>
    have howners := sameOwners_step s.stages hquiet
    have hwrote : ∀ sigId stageId, wrote (actions ++ [Action.other action hquiet]) sigId stageId =
        wrote actions sigId stageId := by
      intro sigId stageId
      rw [wrote_concat]
      exact or_none
    refine ⟨fun sigId stageId b hb => ?_, fun sigId stageId hs => ?_, fun sigId stageId hl => ?_, h.single⟩
    · rw [hwrote] at hb
      obtain ⟨n, hn, bytes, hbytes, hchain⟩ := h.chains _ _ _ hb
      exact ⟨n, hn, bytes, hbytes, hchain.grows ⟨fun _ _ _ => rfl, fun _ _ _ => rfl⟩⟩
    · rw [hwrote]
      exact h.stored _ _ hs
    · exact h.listed _ _ ((howners _ _).symm.trans hl)

theorem kept_run (checks : Bool) (spare : Nat) (actions : List Action) :
    Kept actions (run checks (deltaChainCap + 1 + spare) actions .empty) := by
  induction actions using reverseRecOn with
  | nil => exact ⟨nofun, nofun, nofun, nofun⟩
  | append_singleton actions action ih =>
    unfold run
    rw [foldl_concat]
    exact ih.step action

/-- **What was published is read back**, in every run and with room for `deltaChainCap` deltas; every delta says how
long its chain is; a splice gives the new bytes back; and `apply` answers for every delta but those whose lengths
overflow. -/
theorem read_after_publish (checks : Bool) :
    (∀ (spare : Nat) (actions : List Action) (sigId : SigId) (stageId : StageId),
      (∀ b, wrote actions sigId stageId = some b → ∀ spare',
        read_stage_canonical_bytes checks (run checks (deltaChainCap + 1 + spare) actions .empty) sigId
          (deltaChainCap + 1 + spare') stageId = some (.ok b)) ∧
      ∀ d, (run checks (deltaChainCap + 1 + spare) actions .empty).delta sigId stageId = some d →
        d.chainLength ≤ deltaChainCap ∧ ∃ bytes,
          Chain (run checks (deltaChainCap + 1 + spare) actions .empty) sigId stageId d.chainLength bytes) ∧
      (∀ (baseStageId : StageId) (chainLength : Nat) (base : Bytes) (new : List UInt8),
        apply checks base (deltaOf baseStageId chainLength base new) = some (.ok new)) ∧
      ∀ (base : Bytes) (delta : StageDelta), (apply checks base delta).isSome = true ↔
        unhex delta.middleHex = none ∨ delta.commonPrefix + delta.commonSuffix < 2 ^ 64 ∨
          checks = false ∧ base.1.length < (delta.commonPrefix + delta.commonSuffix) % 2 ^ 64 := by
  refine ⟨fun spare actions sigId stageId => ⟨fun b hb spare' => ?_, fun d hd => ?_⟩,
    apply_splice checks, apply_isSome_iff checks⟩
  · obtain ⟨n, hn, bytes, rfl, hchain⟩ := (kept_run checks spare actions).chains _ _ _ hb
    have hread := hchain.read checks (deltaChainCap - n + spare')
    rw [show n + 1 + (deltaChainCap - n + spare') = deltaChainCap + 1 + spare' by omega] at hread
    exact hread
  · have hkept := kept_run checks spare actions
    have hast := hkept.single sigId stageId (hd ▸ rfl)
    have hstored : (run checks (deltaChainCap + 1 + spare) actions .empty).stored sigId stageId = true := by
      unfold DeltaStore.stored
      rw [hd, isSome_some, Bool.or_true]
    obtain ⟨b, hb⟩ := isSome_iff_exists.mp (hkept.stored _ _ hstored)
    obtain ⟨n, hn, bytes, rfl, hchain⟩ := hkept.chains _ _ _ hb
    have hlength := hchain.length_eq
    unfold delta_chain_length at hlength
    rw [hast, hd] at hlength
    obtain rfl : d.chainLength = n := hlength
    exact ⟨hn, bytes, hchain⟩

/-- A prefix of `usize::MAX` bytes and a suffix of one: their sum is 0, or overflows. -/
theorem apply_panics : ¬ ∃ checks : Bool, ∀ (base : Bytes) (delta : StageDelta), delta.commonPrefix < 2 ^ 64 →
    delta.commonSuffix < 2 ^ 64 → (apply checks base delta).isSome = true := by
  rintro ⟨checks, h⟩
  have hcheck := h ⟨[], Nat.zero_le _⟩ ⟨"base", 1, 2 ^ 64 - 1, 1, ""⟩ (by decide) (by decide)
  have hnone : (apply checks [] ⟨"base", 1, 2 ^ 64 - 1, 1, ""⟩).isSome = false := by
    cases checks with
    | true => rfl
    | false => rfl
  exact nomatch hnone.symm.trans hcheck

end Runs

end LexLang.Delta
