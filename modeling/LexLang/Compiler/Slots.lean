/-
# LexLang.Compiler.Slots — every slot that is read holds what its binder gave

`Tracks` for everything that is emitted, up to whole expressions: patterns, arms and the joins after them,
the code of the operations that are emitted in place, lambdas. No condition on names is needed: whichever
binder the map takes a name for, the slot holds that binder's value.
-/
import LexLang.Compiler.Flow

namespace LexLang.Compiler

open LexLang.Ast
open List Option

section Slots

variable {G : Globals} {E : Nat → Option (List (String × Owner))} {n : Nat} {scope : Scope}
  {fc fc' done : FnCompiler}

/-! ## Names -/

/-- No function that is called by its name is a lambda. -/
def NamedApart (G : Globals) (E : Nat → Option (List (String × Owner))) : Prop :=
  ∀ name fnId, G.functionNames name = some fnId → E fnId = none

theorem witnessed_load {name : String} {l : Local} (hl : fc.locals name = some l)
    (lexical : Option Denotation) (T T' : Nat → Given) (hT : Sound E fc T)
    (he : Extends fc.code (fc.code ++ [Op.loadLocal l.slot]) T T') :
    Witnessed (fc.code ++ [Op.loadLocal l.slot]) T' ⟨fc.pc, name, lexical, l.owner.denotes⟩ := by
  rw [Witnessed]
  cases howner : l.owner with
  | temporary => trivial
  | binder b =>
    refine ⟨l.slot, List.getElem?_concat_length, ?_⟩
    show T' fc.code.length l.slot = some b
    rw [he.same _ le_rfl]
    exact hT.known name l b hl howner

theorem tracks_panic : Tracks E n fc fc.panic where
  pc := le_rfl
  run := by
    intro T hT
    obtain ⟨T', hT', hsame, hframe⟩ := (Tracks.refl : Tracks E n fc fc).run T hT
    exact ⟨T', ⟨hT'.inside, hT'.carried, hT'.slots, hT'.known, hT'.refs, hT'.closures⟩, hsame, hframe⟩

theorem tracks_compileVar (hE : NamedApart G E) (name : String) : Tracks E n fc (fc.compileVar G scope name) := by
  unfold FnCompiler.compileVar
  split
  · next l hl =>
    refine tracks_note [.loadLocal l.slot] ?_ (witnessed_load hl _)
    intro op hop
    rw [mem_singleton.mp hop]
    exact .inl trivial
  · split
    · next fnId hf =>
      refine tracks_note [.makeClosure fnId 0] ?_ ?_
      · intro op hop
        rw [mem_singleton.mp hop]
        exact .inr ⟨fnId, rfl, hE name fnId hf⟩
      · intro T T' _ _
        exact ⟨_, List.getElem?_concat_length, .inl rfl⟩
    · exact tracks_panic

theorem tracks_compileCallee (hE : NamedApart G E) (name : String) :
    Tracks E n fc (fc.compileCallee G scope name) := by
  unfold FnCompiler.compileCallee
  split
  · next l hl =>
    refine tracks_note [.loadLocal l.slot] ?_ (witnessed_load hl _)
    intro op hop
    rw [mem_singleton.mp hop]
    exact .inl trivial
  · exact tracks_compileVar hE name

/-- A module that is named. -/
theorem tracks_module (name module : String) (lexical : Option Denotation) :
    Tracks E n fc (fc.note name lexical (.module module)) := by
  have h : Tracks E n fc ((fc.note name lexical (.module module)).emitAll []) :=
    tracks_note [] (by simp) (fun _ _ _ _ => trivial)
  simpa [FnCompiler.emitAll] using h

/-! ## Operators -/

theorem tracks_emitBinOp (hn : n ≤ fc.nextLocal) (op : String) : Tracks E n fc (fc.emitBinOp op) := by
  unfold FnCompiler.emitBinOp
  split
  all_goals first
    | exact tracks_emit _ trivial
    | exact (tracks_emit .numEq trivial).trans (tracks_emit .boolNot trivial)
    | exact (tracks_emitSwapTop2 hn).trans (tracks_emit .numLt trivial)
    | exact (tracks_emitSwapTop2 hn).trans (tracks_emit .numLe trivial)
    | exact tracks_panic

theorem tracks_emitUnaryOp (op : String) : Tracks E n fc (fc.emitUnaryOp op) := by
  unfold FnCompiler.emitUnaryOp
  split
  · exact tracks_emit _ trivial
  · exact tracks_emit _ trivial
  · exact tracks_panic

/-! ## Lambdas -/

theorem tracks_compileLambda {params : List String} {body : CExpr}
    (hE : ∀ pl ∈ (fc.compileLambda scope params body).pendingLambdas, E pl.fnId = some pl.captures) :
    Tracks E n fc (fc.compileLambda scope params body) where
  pc := by simp [FnCompiler.pc, FnCompiler.compileLambda, FnCompiler.emitAll]
  run := by
    intro T hT
    have hself := hE _ mem_cons_self
    let captures := fc.captures params body
    let loads : List Op := captures.map fun c => .loadLocal c.2.slot
    let T' : Nat → Given := fun i => if i ≤ fc.pc then T i else T fc.pc
    have hold : ∀ i, i ≤ fc.pc → T' i = T i := fun i hi => if_pos hi
    have hnew : ∀ i, fc.pc ≤ i → T' i = T fc.pc := by
      intro i hi
      rcases Nat.eq_or_lt_of_le hi with rfl | hlt
      · exact hold _ le_rfl
      · exact if_neg (by omega)
    have hops : ∀ op ∈ loads ++ [Op.makeClosure fc.functions captures.length],
        ∀ pc, op.targets pc = [pc + 1] ∧ ∀ fnId σ, op.give fnId pc σ = σ := by
      intro op hop pc
      rcases mem_append.mp hop with hop | hop
      · obtain ⟨c, _, rfl⟩ := List.mem_map.mp hop
        exact ⟨rfl, fun _ _ => rfl⟩
      · rw [mem_singleton.mp hop]
        exact ⟨rfl, fun _ _ => rfl⟩
    refine ⟨T', hT.append (loads ++ [Op.makeClosure fc.functions captures.length]) rfl rfl hold
      ?_ ?_ hT.slots ?_ (fun _ hr => .inl hr), hold, ?_⟩
    · intro i op hop pc' hpc'
      have hi := (List.getElem?_eq_some_iff.mp hop).1
      obtain ⟨htargets, hgive⟩ := hops op (mem_of_getElem? hop) (fc.pc + i)
      rw [htargets, mem_singleton] at hpc'
      rw [hpc', hgive, hnew _ (by omega), hnew _ (by omega)]
      exact ⟨by omega, .refl _⟩
    · intro i fnId count hop
      -- the only closure of this code is the last instruction
      have hlast : i = captures.length ∧ fnId = fc.functions ∧ count = captures.length := by
        rcases getElem?_append_cases hop with ⟨_, hload⟩ | ⟨j, rfl, hmake⟩
        · obtain ⟨c, _, hc⟩ := List.mem_map.mp (mem_of_getElem? hload)
          cases hc
        · rw [List.getElem?_eq_some_iff] at hmake
          obtain ⟨hj, hmake⟩ := hmake
          have : j = 0 := by simpa using hj
          subst this
          cases hmake
          exact ⟨by simp [loads], rfl, rfl⟩
      obtain ⟨rfl, rfl, rfl⟩ := hlast
      have hself : E fc.functions = some (captures.map fun c => (c.1, c.2.owner)) := hself
      rw [WellMade, hself]
      refine ⟨length_map _, ?_⟩
      intro j name b hj
      rw [List.getElem?_map] at hj
      obtain ⟨⟨name', l⟩, hl, heq⟩ := map_eq_some_iff.mp hj
      have hlocal : fc.locals name' = some l := by
        obtain ⟨x, _, hx⟩ := mem_filterMap.mp (mem_of_getElem? hl)
        obtain ⟨l', hl', heq'⟩ := map_eq_some_iff.mp hx
        cases heq'
        exact hl'
      have howner : l.owner = .binder b := (Prod.mk.inj heq).2
      refine ⟨l.slot, ?_, ?_⟩
      · rw [Nat.add_sub_cancel]
        have hload : loads[j]? = some (.loadLocal l.slot) := by
          rw [List.getElem?_map, hl]
          rfl
        show (fc.code ++ (loads ++ _))[fc.code.length + j]? = _
        rw [List.getElem?_append_right (Nat.le_add_right _ _), Nat.add_sub_cancel_left]
        exact getElem?_of_append _ hload
      · rw [hnew _ (Nat.le_add_right _ _)]
        exact hT.known name' l b hlocal howner
    · intro x l b hl hb
      rw [hnew _ (by simp [FnCompiler.pc, FnCompiler.compileLambda, FnCompiler.emitAll])]
      exact hT.known x l b hl hb
    · intro i hi _ slot _
      rw [hnew i hi]

/-! ## Joins -/

theorem Op.targets_aim {op : Op} {j target pc' : Nat} (h : pc' ∈ (op.aim j target).targets j) :
    (pc' = target ∧ ∀ fnId pc σ, op.give fnId pc σ = σ) ∨ pc' ∈ op.targets j := by
  cases op <;> first
    | exact .inr h
    | skip
  · left
    have := mem_singleton.mp h
    rw [this, land]
    exact ⟨by omega, fun _ _ _ => rfl⟩
  · rcases mem_cons.mp h with rfl | h
    · exact .inr mem_cons_self
    · left
      have := mem_singleton.mp h
      rw [this, land]
      exact ⟨by omega, fun _ _ _ => rfl⟩

theorem Op.give_aim (op : Op) (j target fnId pc : Nat) (σ : Given) :
    (op.aim j target).give fnId pc σ = op.give fnId pc σ := by
  cases op <;> rfl

/-- Where jumps are aimed at the end of the code, the end may know no more than they do. -/
theorem Sound.patchAll {T : Nat → Given} (hT : Sound E fc T) {jumps : List Nat}
    (hjumps : ∀ j ∈ jumps, (T fc.pc).Within (T j)) : Sound E (fc.patchAll jumps) T := by
  have hpc : (fc.patchAll jumps).pc = fc.pc := length_mapIdx
  have hpatched : ∀ (j : Nat) (op : Op), (fc.patchAll jumps).code[j]? = some op →
      ∃ op', fc.code[j]? = some op' ∧ (op = op' ∨ j ∈ jumps ∧ op = op'.aim j fc.pc) := by
    intro j op hop
    rw [FnCompiler.patchAll, List.getElem?_mapIdx] at hop
    obtain ⟨op', hop', rfl⟩ := map_eq_some_iff.mp hop
    refine ⟨op', hop', ?_⟩
    by_cases hj : j ∈ jumps
    · rw [if_pos hj]
      exact .inr ⟨hj, rfl⟩
    · rw [if_neg hj]
      exact .inl rfl
  have hkeeps : ∀ (j : Nat) (op : Op), fc.code[j]? = some op → (∀ t, op.aim j t = op) →
      (fc.patchAll jumps).code[j]? = some op := by
    intro j op hop haim
    rw [FnCompiler.patchAll, List.getElem?_mapIdx, hop, map_some, haim, ite_self]
  constructor
  case slots => exact hT.slots
  case known =>
    rw [hpc]
    exact hT.known
  case inside =>
    intro pc op hop pc' hpc'
    rw [hpc]
    obtain ⟨op', hop', rfl | ⟨_, rfl⟩⟩ := hpatched pc op hop
    · exact hT.inside pc op hop' pc' hpc'
    · rcases Op.targets_aim hpc' with ⟨rfl, _⟩ | hpc'
      · exact le_rfl
      · exact hT.inside pc op' hop' pc' hpc'
  case carried =>
    intro pc op hop pc' hpc'
    show (T pc').Within (op.give fc.fnId pc (T pc))
    obtain ⟨op', hop', rfl | ⟨hj, rfl⟩⟩ := hpatched pc op hop
    · exact hT.carried pc op hop' pc' hpc'
    · rw [Op.give_aim]
      rcases Op.targets_aim hpc' with ⟨rfl, hgive⟩ | hpc'
      · rw [hgive]
        exact hjumps pc hj
      · exact hT.carried pc op' hop' pc' hpc'
  case refs =>
    intro r hr
    have h := hT.refs r hr
    unfold Witnessed at h ⊢
    split at h
    · obtain ⟨slot, hop, hslot⟩ := h
      exact ⟨slot, hkeeps _ _ hop fun _ => rfl, hslot⟩
    · obtain ⟨op, hop, hkind⟩ := h
      refine ⟨op, hkeeps _ _ hop ?_, hkind⟩
      rcases hkind with rfl | ⟨arity, rfl | rfl⟩ <;> exact fun _ => rfl
    · exact hkeeps _ _ h fun _ => rfl
    · trivial
  case closures =>
    intro pc fnId count hop
    obtain ⟨op', hop', heq⟩ := hpatched pc _ hop
    have hop' : fc.code[pc]? = some (.makeClosure fnId count) := by
      rcases heq with rfl | ⟨_, heq⟩
      · exact hop'
      · cases op' <;> cases heq
        exact hop'
    have h := hT.closures pc fnId count hop'
    unfold WellMade at h ⊢
    split at h
    · exact h
    · refine ⟨h.1, ?_⟩
      intro i name b hi
      obtain ⟨slot, hload, hslot⟩ := h.2 i name b hi
      exact ⟨slot, hkeeps _ _ hload fun _ => rfl, hslot⟩

/-- **A join.** After a piece of code, `op` leads at most to the next instruction, and so do jumps out of
the piece; there the names and the slots are as before it. -/
theorem tracks_join (h : Tracks E fc.nextLocal fc done) (op : Op)
    (hop : op = .jump 0 ∨ ∃ msg, op = .panic msg) {jumps : List Nat} (hjumps : ∀ j ∈ jumps, fc.pc ≤ j ∧ j < done.pc) :
    Tracks E fc.nextLocal fc
      { (done.emit op).patchAll jumps with locals := fc.locals, nextLocal := fc.nextLocal } where
  pc := by
    have := h.pc
    simp only [FnCompiler.pc, FnCompiler.patchAll, FnCompiler.emit, length_mapIdx, length_append] at this ⊢
    omega
  run := by
    intro T₀ hT₀
    obtain ⟨T, hT, hsame, hframe⟩ := h.run T₀ hT₀
    have hle := h.pc
    let T' : Nat → Given := fun i =>
      if i ≤ done.pc then T i else (T done.pc).outside (fc.nextLocal ≤ ·)
    have hold : ∀ i, i ≤ done.pc → T' i = T i := fun i hi => if_pos hi
    have hnew : T' (done.pc + 1) = (T done.pc).outside (fc.nextLocal ≤ ·) := if_neg (by omega)
    have hkeep : ∀ slot < fc.nextLocal, T' (done.pc + 1) slot = T₀ fc.pc slot := by
      intro slot hslot
      rw [hnew, Given.outside_of_not (by omega), hframe _ hle le_rfl slot hslot]
    -- at the join the slots of the piece are forgotten
    have hwithin : ∀ i, fc.pc ≤ i → i ≤ done.pc → (T' (done.pc + 1)).Within (T i) := by
      intro i hi hi' slot b hb
      have hslot : slot < fc.nextLocal := by
        by_contra hge
        rw [hnew, Given.outside, if_pos (by omega)] at hb
        cases hb
      rw [hkeep slot hslot] at hb
      rw [hframe i hi hi' slot hslot, hb]
    have hjoined : Sound E { done.emit op with locals := fc.locals, nextLocal := fc.nextLocal } T' := by
      refine hT.append [op] rfl rfl hold ?_ ?_ hT₀.slots ?_ (fun _ hr => .inl hr)
      · intro i op' hop' pc' hpc'
        rw [List.getElem?_eq_some_iff] at hop'
        obtain ⟨hi, rfl⟩ := hop'
        have : i = 0 := by simpa using hi
        subst this
        rcases hop with rfl | ⟨msg, rfl⟩
        · have : pc' = done.pc + 1 := by
            have := mem_singleton.mp hpc'
            rw [this, land]
            omega
          subst this
          refine ⟨le_rfl, ?_⟩
          show (T' (done.pc + 1)).Within (T' done.pc)
          rw [hold _ le_rfl]
          exact hwithin _ hle le_rfl
        · cases hpc'
      · intro i fnId count hop'
        rw [List.getElem?_eq_some_iff] at hop'
        obtain ⟨hi, hop'⟩ := hop'
        have : i = 0 := by simpa using hi
        subst this
        rcases hop with rfl | ⟨msg, rfl⟩ <;> cases hop'
      · intro x l b hl hb
        have hpc : ({ done.emit op with locals := fc.locals, nextLocal := fc.nextLocal } :
            FnCompiler).pc = done.pc + 1 := by simp [FnCompiler.pc, FnCompiler.emit]
        rw [hpc, hkeep _ (hT₀.slots x l hl)]
        exact hT₀.known x l b hl hb
    have hend : ({ done.emit op with locals := fc.locals, nextLocal := fc.nextLocal } :
        FnCompiler).pc = done.pc + 1 := by simp [FnCompiler.pc, FnCompiler.emit]
    refine ⟨T', hjoined.patchAll ?_, ?_, ?_⟩
    · intro j hj
      obtain ⟨hfrom, hto⟩ := hjumps j hj
      rw [hend, hold j (Nat.le_of_lt hto)]
      exact hwithin j hfrom (Nat.le_of_lt hto)
    · intro i hi
      rw [hold i (by omega), hsame i hi]
    · intro i hi hi' slot hslot
      have hpatched : ({ (done.emit op).patchAll jumps with
          locals := fc.locals, nextLocal := fc.nextLocal } : FnCompiler).pc = done.pc + 1 := by
        simp [FnCompiler.pc, FnCompiler.patchAll, FnCompiler.emit]
      rw [hpatched] at hi'
      rcases Nat.lt_or_ge done.pc i with hlt | hge
      · have : i = done.pc + 1 := by omega
        subst this
        exact hkeep slot hslot
      · rw [hold i hge]
        exact hframe i hi hge slot hslot

/-! ## Patterns -/

theorem tracks_testLit (value : CLit) : Tracks E n fc (fc.emitAll [.pushConst value, litEq value, .jumpIfNot 0]) := by
  refine tracks_code _ ?_
  intro i op hop
  rcases i with _ | _ | _ | i <;> cases hop
  · simp [Op.Inside, Op.targets]
  · cases value <;> simp [Op.Inside, Op.targets, litEq] <;> omega
  · simp [Op.Inside, Op.targets, land] <;> omega

theorem tracks_testVariant (name : String) :
    Tracks E n fc (fc.emitAll [.dup, .testVariant name, .jumpIf 2, .pop, .jump 0]) := by
  refine tracks_code _ ?_
  intro i op hop
  rcases i with _ | _ | _ | _ | _ | i <;> cases hop <;> simp [Op.Inside, Op.targets, land] <;> omega

theorem Op.Plain.straight {op : Op} (h : op.Plain) : op.Straight := by
  cases op <;> first
    | exact h.elim
    | trivial

theorem TestSteps.tracks {names : List (String × Bool)} {t t' : PatternTest} (h : TestSteps names t t')
    (hn : n ≤ t.fc.nextLocal) : Tracks E n t.fc t'.fc := by
  induction h with
  | refl => exact .refl
  | emit t op hop => exact tracks_emit op hop.straight
  | bindVar t name => exact tracks_bind_binder hn name
  | bindPart t name => exact tracks_bind hn name
  | testLit t value => exact tracks_testLit value
  | testVariant t name => exact tracks_testVariant name
  | trans h _ ih ih' =>
    have hstep : Emitted [] _ 0 _ _ := h.emitted
    exact (ih hn).trans (ih' (hn.trans hstep.nextLocal))

/-- The jumps of a failed test are in the code of the test. -/
theorem TestSteps.fails {names : List (String × Bool)} {t t' : PatternTest} (h : TestSteps names t t') :
    ∀ j ∈ t'.fails, j ∈ t.fails ∨ t.fc.pc ≤ j ∧ j < t'.fc.pc := by
  induction h with
  | refl | emit | bindVar | bindPart => exact fun _ => .inl
  | testLit t value =>
    intro j hj
    refine (mem_append.mp hj).imp_right fun hj => ?_
    rw [mem_singleton.mp hj]
    simp [PatternTest.testLit, FnCompiler.pc, FnCompiler.emitAll]
  | testVariant t name =>
    intro j hj
    refine (mem_append.mp hj).imp_right fun hj => ?_
    rw [mem_singleton.mp hj]
    simp [PatternTest.testVariant, FnCompiler.pc, FnCompiler.emitAll]
  | trans h h' ih ih' =>
    have hstep : Emitted [] _ 0 _ _ := h.emitted
    have hstep' : Emitted [] _ 0 _ _ := h'.emitted
    have := hstep.pc
    have := hstep'.pc
    intro j hj
    rcases ih' j hj with hj | hj
    · exact (ih j hj).imp_right fun hj => ⟨hj.1, by omega⟩
    · exact .inr ⟨by omega, hj.2⟩

/-! ## Templates -/

/-- The `i`-th step of a group of `length` steps stays in the group, and stores in one of the `bound`
temporaries. -/
def Step.ok (bound length i : Nat) : Step → Bool
  | .op (.loadLocal _) | .op (.storeLocal _) | .op (.makeClosure _ _) => false
  | .op other => (other.targets i).all fun i' => 0 < i' && i' ≤ length
  | .store k => k < bound && i < length
  | _ => i < length

/-- The temporaries bound after a step. -/
def Step.bound (bound : Nat) (step : Step) : Nat := bound + step.name?.toList.length

def stepsOk (length : Nat) : Nat → Nat → List Step → Bool
  | _, _, [] => true
  | bound, i, step :: steps => step.ok bound length i && stepsOk length (step.bound bound) (i + 1) steps

def templateOk : Nat → Template → Bool
  | _, [] => true
  | bound, steps :: template =>
    stepsOk steps.length bound 0 steps && templateOk (bound + (stepNames steps).length) template

theorem templateOk_of_higherOrder {operation : String × String} {template : Template}
    (h : higherOrder operation = some template) : templateOk 0 template = true := by
  unfold higherOrder at h
  split at h
  all_goals first
    | (cases h; decide +kernel)
    | cases h

/-- Every local has a slot that was handed out. -/
def FnCompiler.Slotted (fc : FnCompiler) : Prop := ∀ x l, fc.locals x = some l → l.slot < fc.nextLocal

/-- Slots from `n` on that were handed out, and not to a binder that is still in the map. -/
def Temps (n : Nat) (fc : FnCompiler) (slots : List Nat) : Prop :=
  ∀ slot ∈ slots, n ≤ slot ∧ slot < fc.nextLocal ∧
    ∀ x l b, fc.locals x = some l → l.owner = .binder b → l.slot ≠ slot

theorem Tracks.of_slotted (hpc : fc.pc ≤ fc'.pc) (h : fc.Slotted → Tracks E n fc fc') : Tracks E n fc fc' where
  pc := hpc
  run := fun T hT => (h hT.slots).run T hT

theorem Temps.emitted {names : List String} {count : Nat} {slots : List Nat} (h : Temps n fc slots)
    (he : Emitted scope names count fc fc') : Temps n fc' slots := by
  intro slot hslot
  obtain ⟨hn, hlt, hfree⟩ := h slot hslot
  refine ⟨hn, Nat.lt_of_lt_of_le hlt he.nextLocal, ?_⟩
  intro x l b hl hb
  by_cases hx : x ∈ names
  · obtain ⟨l', hl', hafter⟩ := he.left x hx
    rw [hl] at hl'
    cases hl'
    have := hafter.1
    omega
  · rw [he.kept x hx] at hl
    exact hfree x l b hl hb

/-- The instruction of a step. -/
def Inlining.opOf (s : Inlining) : Step → Op
  | .op op => op
  | .bind _ => .storeLocal s.fc.nextLocal
  | .load k => .loadLocal (s.slots.getD k 0)
  | .store k => .storeLocal (s.slots.getD k 0)
  | .trampoline name captureCount => .makeTrampoline name captureCount

/-- The slots that a step hands out. -/
def Inlining.newSlots (s : Inlining) : Step → List Nat
  | .bind _ => [s.fc.nextLocal]
  | _ => []

theorem Inlining.code_step (s : Inlining) (step : Step) : (s.step step).fc.code = s.fc.code ++ [s.opOf step] := by
  cases step <;> rfl

theorem Inlining.slots_step (s : Inlining) (step : Step) : (s.step step).slots = s.slots ++ s.newSlots step := by
  cases step <;> first
    | rfl
    | exact (append_nil _).symm

theorem Inlining.refs_step (s : Inlining) (step : Step) : (s.step step).fc.refs = s.fc.refs := by
  cases step <;> rfl

theorem Inlining.locals_step (s : Inlining) (step : Step) {x : String} {l : Local}
    (hl : (s.step step).fc.locals x = some l) :
    s.fc.locals x = some l ∨ l.owner = .temporary ∧ l.slot < (s.step step).fc.nextLocal := by
  cases step with
  | op op => exact .inl hl
  | load k => exact .inl hl
  | store k => exact .inl hl
  | trampoline name captureCount => exact .inl hl
  | bind name =>
    have hl : Function.update s.fc.locals name (some ⟨s.fc.nextLocal, .temporary⟩) x = some l := hl
    by_cases hx : x = name
    · subst hx
      rw [Function.update_self] at hl
      cases hl
      exact .inr ⟨rfl, Nat.lt_succ_self _⟩
    · rw [Function.update_of_ne hx] at hl
      exact .inl hl

theorem Inlining.length_slots_step (s : Inlining) (step : Step) :
    (s.step step).slots.length = step.bound s.slots.length := by
  rw [Inlining.slots_step, length_append]
  cases step <;> rfl

theorem land_add (base i : Nat) (off : Int) (h : 0 < land i off) : land (base + i) off = base + land i off := by
  unfold land at h ⊢
  omega

/-- The targets move with the group. -/
theorem Op.targets_add {op : Op} (base : Nat) {i pc' : Nat} (hin : ∀ i' ∈ op.targets i, 0 < i')
    (h : pc' ∈ op.targets (base + i)) : ∃ i' ∈ op.targets i, pc' = base + i' := by
  have hland : ∀ off, land i off ∈ op.targets i → pc' = land (base + i) off →
      ∃ i' ∈ op.targets i, pc' = base + i' :=
    fun off hmem heq => ⟨_, hmem, heq.trans (land_add base i off (hin _ hmem))⟩
  cases op with
  | jump off => exact hland off mem_cons_self (mem_singleton.mp h)
  | jumpIf off | jumpIfNot off =>
    rcases mem_cons.mp h with rfl | h
    · exact ⟨i + 1, mem_cons_self, Nat.add_assoc base i 1⟩
    · exact hland off (by simp [Op.targets]) (mem_singleton.mp h)
  | «return» | tailCall | panic => cases h
  | _ => exact ⟨i + 1, mem_cons_self, mem_singleton.mp h⟩

/-- A step that is in order stays in its group, wherever the group stands. -/
theorem Inlining.inside_step {s : Inlining} {step : Step} {length i : Nat} {slots : List Nat}
    (hok : step.ok s.slots.length length i = true) (base : Nat)
    (hslots : ∀ slot ∈ s.slots ++ s.newSlots step, slot ∈ slots) :
    (s.opOf step).Inside (· ∈ slots) base length i := by
  have hnext : ∀ op : Op, op.targets (base + i) = [base + i + 1] → i < length →
      ∀ pc' ∈ op.targets (base + i), base < pc' ∧ pc' ≤ base + length := by
    intro op htargets hi pc' hpc'
    rw [htargets, mem_singleton] at hpc'
    omega
  cases step with
  | bind name =>
    refine ⟨?_, fun _ _ h => (by cases h), hnext _ rfl (of_decide_eq_true hok)⟩
    intro slot h
    cases h
    exact hslots _ (mem_append_right _ (mem_singleton_self _))
  | load k => exact ⟨fun _ h => (by cases h), fun _ _ h => (by cases h), hnext _ rfl (of_decide_eq_true hok)⟩
  | trampoline name captureCount =>
    exact ⟨fun _ h => (by cases h), fun _ _ h => (by cases h), hnext _ rfl (of_decide_eq_true hok)⟩
  | store k =>
    rw [Step.ok, Bool.and_eq_true, decide_eq_true_eq, decide_eq_true_eq] at hok
    refine ⟨?_, fun _ _ h => (by cases h), hnext _ rfl hok.2⟩
    intro slot h
    cases h
    apply hslots
    rw [getD_eq_getElem?_getD, List.getElem?_eq_getElem hok.1, getD_some]
    exact mem_append_left _ (getElem_mem _)
  | op op =>
    have hall : (op.targets i).all (fun i' => 0 < i' && i' ≤ length) = true ∧
        (∀ slot, op ≠ .storeLocal slot) ∧ ∀ fnId count, op ≠ .makeClosure fnId count := by
      cases op <;> first
        | exact ⟨hok, fun _ h => (by cases h), fun _ _ h => (by cases h)⟩
        | exact absurd hok Bool.false_ne_true
    obtain ⟨hall, hstore, hclosure⟩ := hall
    refine ⟨fun slot h => absurd h (hstore slot), hclosure, ?_⟩
    rw [List.all_eq_true] at hall
    have hin : ∀ i' ∈ op.targets i, 0 < i' ∧ i' ≤ length := by
      intro i' hi'
      simpa using hall i' hi'
    intro pc' hpc'
    obtain ⟨i', hi', rfl⟩ := Op.targets_add base (fun i' hi' => (hin i' hi').1) hpc'
    have := hin i' hi'
    omega

/-- **A group of steps is a block of code** that stores in temporaries only. -/
theorem Inlining.block {length : Nat} (base : Nat) : ∀ (steps : List Step) (s : Inlining) (i : Nat),
    stepsOk length s.slots.length i steps = true →
    ∃ ops new, (s.steps steps).fc.code = s.fc.code ++ ops ∧ ops.length = steps.length ∧
      (s.steps steps).slots = s.slots ++ new ∧ new.length = (stepNames steps).length ∧
      (∀ slot ∈ new, s.fc.nextLocal ≤ slot ∧ slot < (s.steps steps).fc.nextLocal) ∧
      (s.steps steps).fc.refs = s.fc.refs ∧
      (∀ x l, (s.steps steps).fc.locals x = some l →
        s.fc.locals x = some l ∨ l.owner = .temporary ∧ l.slot < (s.steps steps).fc.nextLocal) ∧
      ∀ (j : Nat) (op : Op), ops[j]? = some op →
        op.Inside (· ∈ (s.steps steps).slots) base length (i + j)
  | [], s, i, _ => ⟨[], [], by simp +contextual [Inlining.steps, stepNames]⟩
  | step :: steps, s, i, hok => by
    rw [stepsOk, Bool.and_eq_true, ← Inlining.length_slots_step] at hok
    obtain ⟨ops, new, hcode, hlength, hslots, hnew, hrange, hrefs, hlocals, hinside⟩ :=
      Inlining.block base steps (s.step step) (i + 1) hok.2
    have hall : s.steps (step :: steps) = (s.step step).steps steps := rfl
    have hstep : Emitted [] step.name?.toList 0 s.fc (s.step step).fc := emitted_step s step
    have hsteps : Emitted [] (stepNames steps) 0 (s.step step).fc ((s.step step).steps steps).fc :=
      emitted_steps steps _
    have hnext := hstep.nextLocal
    have hnext' := hsteps.nextLocal
    refine ⟨s.opOf step :: ops, s.newSlots step ++ new, ?_, ?_, ?_, ?_, ?_, ?_, ?_, ?_⟩
    · rw [hall, hcode, Inlining.code_step, append_assoc]
      rfl
    · rw [length_cons, length_cons, hlength]
    · rw [hall, hslots, Inlining.slots_step, append_assoc]
    · have hnames : stepNames (step :: steps) = step.name?.toList ++ stepNames steps := by
        cases step <;> rfl
      rw [hnames, length_append, length_append, hnew]
      cases step <;> rfl
    · intro slot hslot
      rw [hall]
      rcases mem_append.mp hslot with hslot | hslot
      · cases step with
        | bind name =>
          rw [mem_singleton.mp hslot]
          have : (s.step (.bind name)).fc.nextLocal = s.fc.nextLocal + 1 := rfl
          omega
        | op | load | store | trampoline => cases hslot
      · have := hrange slot hslot
        omega
    · rw [hall, hrefs, Inlining.refs_step]
    · intro x l hl
      rcases hlocals x l hl with hl | htemp
      · rcases s.locals_step step hl with hl | ⟨htemp, hlt⟩
        · exact .inl hl
        · exact .inr ⟨htemp, Nat.lt_of_lt_of_le hlt hnext'⟩
      · exact .inr htemp
    · intro j op hop
      rcases j with _ | j
      · cases hop
        refine Inlining.inside_step hok.1 base ?_
        intro slot hslot
        rw [hall, hslots, Inlining.slots_step]
        exact mem_append_left _ hslot
      · have := hinside j op hop
        rw [hall]
        rwa [Nat.add_right_comm] at this

/-- A group of steps, and the temporaries after it. -/
theorem Inlining.tracks {s : Inlining} {steps : List Step} (hslotted : s.fc.Slotted)
    (htemps : Temps n s.fc s.slots) (hn : n ≤ s.fc.nextLocal)
    (hok : stepsOk steps.length s.slots.length 0 steps = true) :
    Tracks E n s.fc (s.steps steps).fc ∧ Temps n (s.steps steps).fc (s.steps steps).slots ∧
      (s.steps steps).slots.length = s.slots.length + (stepNames steps).length := by
  obtain ⟨ops, new, hcode, hlength, hslots, hnew, hrange, hrefs, hlocals, hinside⟩ :=
    Inlining.block s.fc.pc steps s 0 hok
  have hsteps : Emitted [] (stepNames steps) 0 s.fc (s.steps steps).fc := emitted_steps steps s
  have hfree : ∀ slot ∈ (s.steps steps).slots, n ≤ slot ∧ slot < (s.steps steps).fc.nextLocal ∧
      ∀ x l b, s.fc.locals x = some l → l.owner = .binder b → l.slot ≠ slot := by
    intro slot hslot
    rw [hslots] at hslot
    rcases mem_append.mp hslot with hslot | hslot
    · obtain ⟨hle, hlt, hfree⟩ := htemps slot hslot
      exact ⟨hle, Nat.lt_of_lt_of_le hlt hsteps.nextLocal, hfree⟩
    · obtain ⟨hle, hlt⟩ := hrange slot hslot
      refine ⟨hn.trans hle, hlt, ?_⟩
      intro x l b hl _
      have := hslotted x l hl
      omega
  refine ⟨?_, ?_, ?_⟩
  · refine tracks_block (· ∈ (s.steps steps).slots) ops hcode hsteps.fnId hrefs hsteps.nextLocal hlocals
      (fun slot hslot => (hfree slot hslot).1) ?_ ?_
    · intro _ x l b hl hb hslot
      exact (hfree _ hslot).2.2 x l b hl hb rfl
    · intro i op hop
      have := hinside i op hop
      rwa [Nat.zero_add, ← hlength] at this
  · intro slot hslot
    obtain ⟨hle, hlt, hfree⟩ := hfree slot hslot
    refine ⟨hle, hlt, ?_⟩
    intro x l b hl hb
    rcases hlocals x l hl with hl | ⟨htemp, _⟩
    · exact hfree x l b hl hb
    · rw [htemp] at hb
      cases hb
  · rw [hslots, length_append, hnew]

end Slots

end LexLang.Compiler
