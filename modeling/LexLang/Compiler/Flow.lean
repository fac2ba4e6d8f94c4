/-
# LexLang.Compiler.Flow — where the values in the slots come from

A run of the emitted code is followed by what each slot of the frame holds: the store, or the entry of the
frame, that its value comes from. `Sound` assigns to every position of the code what is known there on
every path; `Tracks` says that a piece of the compilation extends such an assignment, without touching what
is known about the slots that were handed out before.
-/
import LexLang.Compiler.Lexical

namespace LexLang.Compiler

open LexLang.Ast
open Function List Nat

/-! ## Runs -/

/-- For each slot, the binder that gave the value in it. A store of a temporary counts as one. -/
abbrev Given := Nat → Option Binder

/-- The position that a jump at `pc` goes to. -/
def land (pc : Nat) (off : Int) : Nat := (pc + 1 + off).toNat

/-- Where the code may go on after the instruction at `pc`, in the same frame. -/
def Op.targets (pc : Nat) : Op → List Nat
  | .jump off => [land pc off]
  | .jumpIf off => [pc + 1, land pc off]
  | .jumpIfNot off => [pc + 1, land pc off]
  | .return => []
  | .tailCall _ _ => []
  | .panic _ => []
  | _ => [pc + 1]

/-- What the instruction at `pc` of function `fnId` puts into the slots. -/
def Op.give (fnId pc : Nat) : Op → Given → Given
  | .storeLocal slot, σ => Function.update σ slot (some ⟨fnId, .store pc⟩)
  | _, σ => σ

/-- A frame that is entered without captures. -/
def entered (u : FnCompiler) : Given := fun i =>
  if i < u.entries.length then some ⟨u.fnId, .entry i⟩ else none

/-- The frame of a closure made at `pc`: the `count` instructions in front of it load the captures. -/
def enteredWith (code : List Op) (pc count : Nat) (σ : Given) (v : FnCompiler) : Given := fun i =>
  if i < count then
    match code[pc - count + i]? with
    | some (.loadLocal slot) => σ slot
    | _ => none
  else entered v i

/-- **The positions that a run reaches**, with what the slots hold there. Calls leave the frame alone. -/
inductive Reaches (G : Globals) (units : List FnCompiler) : FnCompiler → Nat → Given → Prop
  | call {u name} : u ∈ units → G.functionNames name = some u.fnId → Reaches G units u 0 (entered u)
  | step {u pc σ op pc'} : Reaches G units u pc σ → u.code[pc]? = some op → pc' ∈ op.targets pc →
      Reaches G units u pc' (op.give u.fnId pc σ)
  | closure {u pc σ v count} : Reaches G units u pc σ →
      u.code[pc]? = some (.makeClosure v.fnId count) → v ∈ units →
      Reaches G units v 0 (enteredWith u.code pc count σ v)

/-! ## What is known -/

/-- Everything known in `K` is so in `σ`. -/
def Given.Within (K σ : Given) : Prop := ∀ slot b, K slot = some b → σ slot = some b

theorem Given.Within.refl (K : Given) : K.Within K := fun _ _ => id

variable {K : Given}

theorem Given.Within.trans {K' K'' : Given} (h : K.Within K') (h' : K'.Within K'') : K.Within K'' :=
  fun slot b hb => h' slot b (h slot b hb)

/-- What stays known when the slots of `F` may be written. -/
def Given.outside (F : Nat → Prop) [DecidablePred F] (K : Given) : Given :=
  fun slot => if F slot then none else K slot

theorem Given.outside_within (F : Nat → Prop) [DecidablePred F] (K : Given) : (K.outside F).Within K := by
  intro slot b hb
  rw [Given.outside] at hb
  split at hb
  · cases hb
  · exact hb

theorem Given.outside_of_not {F : Nat → Prop} [DecidablePred F] {slot : Nat} (h : ¬ F slot) :
    K.outside F slot = K slot := if_neg h

theorem Op.give_within (op : Op) (fnId pc : Nat) {σ : Given} (h : K.Within σ) :
    (op.give fnId pc K).Within (op.give fnId pc σ) := by
  cases op
  case storeLocal slot =>
    intro s b hb
    rw [Op.give] at hb ⊢
    by_cases hs : s = slot
    · subst hs
      rwa [update_self] at hb ⊢
    · rw [update_of_ne hs] at hb ⊢
      exact h s b hb
  all_goals exact h

variable {op : Op}

theorem Op.outside_within_give {F : Nat → Prop} [DecidablePred F] {σ : Given}
    (hstore : ∀ slot, op = .storeLocal slot → F slot) (h : (K.outside F).Within σ) (fnId pc : Nat) :
    (K.outside F).Within (op.give fnId pc σ) := by
  cases op
  case storeLocal slot =>
    intro s b hb
    have hs : s ≠ slot := by
      rintro rfl
      rw [Given.outside, if_pos (hstore s rfl)] at hb
      cases hb
    rw [Op.give, update_of_ne hs]
    exact h s b hb
  all_goals exact h

/-- The instruction lets through what is known. -/
def Carried (fnId : Nat) (T : Nat → Given) (pc : Nat) (op : Op) : Prop :=
  ∀ pc' ∈ op.targets pc, (T pc').Within (op.give fnId pc (T pc))

/-- The load of a local that was handed out to a binder, or the instruction for another name. -/
def Witnessed (code : List Op) (T : Nat → Given) (r : Ref) : Prop :=
  match r.denotes with
  | .binder b => ∃ slot, code[r.pc]? = some (.loadLocal slot) ∧ T r.pc slot = some b
  | .function fnId =>
    ∃ op, code[r.pc]? = some op ∧
      (op = .makeClosure fnId 0 ∨ ∃ arity, op = .call fnId arity ∨ op = .tailCall fnId arity)
  | .todo => code[r.pc]? = some (.panic "todo() reached")
  | _ => True

/-- A closure is made of the captures that its function expects. -/
def WellMade (E : Nat → Option (List (String × Owner))) (code : List Op) (T : Nat → Given)
    (pc fnId count : Nat) : Prop :=
  match E fnId with
  | none => count = 0
  | some captures =>
    captures.length = count ∧
      ∀ i name b, captures[i]? = some (name, .binder b) →
        ∃ slot, code[pc - count + i]? = some (.loadLocal slot) ∧ T pc slot = some b

/-- **What is known at each position holds on every path there.** `E` lists the captures of the lambdas. -/
structure Sound (E : Nat → Option (List (String × Owner))) (fc : FnCompiler) (T : Nat → Given) : Prop where
  inside : ∀ pc (op : Op), fc.code[pc]? = some op → ∀ pc' ∈ op.targets pc, pc' ≤ fc.pc
  carried : ∀ pc op, fc.code[pc]? = some op → Carried fc.fnId T pc op
  slots : ∀ x l, fc.locals x = some l → l.slot < fc.nextLocal
  known : ∀ x l b, fc.locals x = some l → l.owner = .binder b → T fc.pc l.slot = some b
  refs : ∀ r ∈ fc.refs, Witnessed fc.code T r
  closures : ∀ pc fnId count, fc.code[pc]? = some (.makeClosure fnId count) →
    WellMade E fc.code T pc fnId count

/-- From `fc` to `fc'` what is known is extended; of the slots below `n` it stays the same. -/
structure Tracks (E : Nat → Option (List (String × Owner))) (n : Nat) (fc fc' : FnCompiler) : Prop where
  pc : fc.pc ≤ fc'.pc
  run : ∀ T, Sound E fc T → ∃ T', Sound E fc' T' ∧ (∀ i ≤ fc.pc, T' i = T i) ∧
    ∀ i, fc.pc ≤ i → i ≤ fc'.pc → ∀ slot < n, T' i slot = T fc.pc slot

section Tracks

variable {E : Nat → Option (List (String × Owner))} {n m : Nat} {fc fc₁ fc₂ fc' : FnCompiler}

theorem Tracks.refl : Tracks E n fc fc where
  pc := le_rfl
  run := by
    intro T hT
    refine ⟨T, hT, fun _ _ => rfl, ?_⟩
    intro i h₁ h₂ slot _
    rw [Nat.le_antisymm h₂ h₁]

theorem Tracks.trans (h : Tracks E n fc fc₁) (h' : Tracks E n fc₁ fc₂) : Tracks E n fc fc₂ where
  pc := h.pc.trans h'.pc
  run := by
    intro T hT
    obtain ⟨T₁, hT₁, hsame₁, hframe₁⟩ := h.run T hT
    obtain ⟨T₂, hT₂, hsame₂, hframe₂⟩ := h'.run T₁ hT₁
    have := h.pc
    refine ⟨T₂, hT₂, ?_, ?_⟩
    · intro i hi
      rw [hsame₂ i (by omega), hsame₁ i hi]
    · intro i h₁ h₂ slot hslot
      rcases Nat.le_total i fc₁.pc with hi | hi
      · rw [hsame₂ i hi, hframe₁ i h₁ hi slot hslot]
      · rw [hframe₂ i hi h₂ slot hslot, hframe₁ fc₁.pc this le_rfl slot hslot]

theorem Tracks.mono (h : Tracks E n fc fc') (hm : m ≤ n) : Tracks E m fc fc' where
  pc := h.pc
  run := by
    intro T hT
    obtain ⟨T', hT', hsame, hframe⟩ := h.run T hT
    exact ⟨T', hT', hsame, fun i h₁ h₂ slot hslot => hframe i h₁ h₂ slot (by omega)⟩

/-! ## Longer code -/

variable {code : List Op}

theorem getElem?_append_cases {ops : List Op} {pc : Nat} (h : (code ++ ops)[pc]? = some op) :
    (pc < code.length ∧ code[pc]? = some op) ∨ ∃ i, pc = code.length + i ∧ ops[i]? = some op := by
  rcases Nat.lt_or_ge pc code.length with hlt | hge
  · rw [List.getElem?_append_left hlt] at h
    exact .inl ⟨hlt, h⟩
  · rw [List.getElem?_append_right hge] at h
    exact .inr ⟨pc - code.length, by omega, h⟩

theorem getElem?_of_append (ops : List Op) {pc : Nat} (h : code[pc]? = some op) : (code ++ ops)[pc]? = some op := by
  rw [List.getElem?_append_left (List.getElem?_eq_some_iff.mp h).1]
  exact h

/-- `code'` goes on where `code` ends, and `T'` agrees with `T` up to there. -/
structure Extends (code code' : List Op) (T T' : Nat → Given) : Prop where
  keeps : ∀ (pc : Nat) (op : Op), code[pc]? = some op → code'[pc]? = some op
  same : ∀ pc ≤ code.length, T' pc = T pc

variable {T T' : Nat → Given}

theorem Witnessed.extend {code' : List Op} {r : Ref}
    (h : Witnessed code T r) (he : Extends code code' T T') : Witnessed code' T' r := by
  unfold Witnessed at h ⊢
  split at h
  · obtain ⟨slot, hop, hT⟩ := h
    refine ⟨slot, he.keeps _ _ hop, ?_⟩
    rw [he.same _ (Nat.le_of_lt (List.getElem?_eq_some_iff.mp hop).1), hT]
  · obtain ⟨op, hop, hkind⟩ := h
    exact ⟨op, he.keeps _ _ hop, hkind⟩
  · exact he.keeps _ _ h
  · trivial

theorem WellMade.extend {code' : List Op} {pc fnId count : Nat}
    (h : WellMade E code T pc fnId count) (hpc : pc ≤ code.length) (he : Extends code code' T T') :
    WellMade E code' T' pc fnId count := by
  unfold WellMade at h ⊢
  split at h
  · exact h
  · refine ⟨h.1, ?_⟩
    intro i name b hi
    obtain ⟨slot, hop, hT⟩ := h.2 i name b hi
    exact ⟨slot, he.keeps _ _ hop, by rw [he.same _ hpc, hT]⟩

/-- **Longer code.** What is known so far stays; what is known in the new part is to be shown for it. -/
theorem Sound.append (hT : Sound E fc T) (ops : List Op)
    (hcode : fc'.code = fc.code ++ ops) (hid : fc'.fnId = fc.fnId) (hold : ∀ i ≤ fc.pc, T' i = T i)
    (hops : ∀ (i : Nat) (op : Op), ops[i]? = some op → ∀ pc' ∈ op.targets (fc.pc + i),
      pc' ≤ fc.pc + ops.length ∧ (T' pc').Within (op.give fc.fnId (fc.pc + i) (T' (fc.pc + i))))
    (hclosures : ∀ i fnId count, ops[i]? = some (.makeClosure fnId count) →
      WellMade E fc'.code T' (fc.pc + i) fnId count) (hslots : ∀ x l, fc'.locals x = some l → l.slot < fc'.nextLocal)
    (hknown : ∀ x l b, fc'.locals x = some l → l.owner = .binder b → T' fc'.pc l.slot = some b)
    (hrefs : ∀ r ∈ fc'.refs, r ∈ fc.refs ∨ Witnessed fc'.code T' r) : Sound E fc' T' := by
  have hpc : fc'.pc = fc.pc + ops.length := by
    rw [FnCompiler.pc, hcode, length_append, FnCompiler.pc]
  have he : Extends fc.code fc'.code T T' :=
    ⟨fun pc op hop => hcode ▸ getElem?_of_append ops hop, hold⟩
  constructor
  case slots => exact hslots
  case known => exact hknown
  case inside =>
    intro pc op hop pc' hpc'
    rw [hcode] at hop
    rcases getElem?_append_cases hop with ⟨_, hold'⟩ | ⟨i, rfl, hnew⟩
    · have := hT.inside pc op hold' pc' hpc'
      omega
    · rw [hpc]
      exact (hops i op hnew pc' hpc').1
  case carried =>
    intro pc op hop pc' hpc'
    rw [hcode] at hop
    rcases getElem?_append_cases hop with ⟨hlt, hold'⟩ | ⟨i, rfl, hnew⟩
    · rw [hid, hold pc (Nat.le_of_lt hlt), hold pc' (hT.inside pc op hold' pc' hpc')]
      exact hT.carried pc op hold' pc' hpc'
    · rw [hid]
      exact (hops i op hnew pc' hpc').2
  case refs =>
    intro r hr
    rcases hrefs r hr with hr | hr
    · exact (hT.refs r hr).extend he
    · exact hr
  case closures =>
    intro pc fnId count hop
    rw [hcode] at hop
    rcases getElem?_append_cases hop with ⟨hlt, hold'⟩ | ⟨i, rfl, hnew⟩
    · exact (hT.closures pc fnId count hold').extend (Nat.le_of_lt hlt) he
    · exact hclosures i fnId count hnew

/-- An instruction at `base + i` of a block: it stays in the block, behind its start, and stores in `F`. -/
def Op.Inside (F : Nat → Prop) (base length i : Nat) (op : Op) : Prop :=
  (∀ slot, op = .storeLocal slot → F slot) ∧ (∀ fnId count, op ≠ .makeClosure fnId count) ∧
    ∀ pc' ∈ op.targets (base + i), base < pc' ∧ pc' ≤ base + length

/-- **A block of code that resolves no name.** What is known on entry stays known outside of `F`. -/
theorem tracks_block (F : Nat → Prop) [DecidablePred F] (ops : List Op)
    (hcode : fc'.code = fc.code ++ ops) (hid : fc'.fnId = fc.fnId) (hrefs : fc'.refs = fc.refs)
    (hnext : fc.nextLocal ≤ fc'.nextLocal) (hlocals : ∀ x l, fc'.locals x = some l →
      fc.locals x = some l ∨ l.owner = .temporary ∧ l.slot < fc'.nextLocal) (hframe : ∀ slot, F slot → n ≤ slot)
    (hfree : (∀ x l, fc.locals x = some l → l.slot < fc.nextLocal) →
      ∀ x l b, fc.locals x = some l → l.owner = .binder b → ¬ F l.slot)
    (hops : ∀ (i : Nat) (op : Op), ops[i]? = some op → op.Inside F fc.pc ops.length i) : Tracks E n fc fc' where
  pc := by
    rw [FnCompiler.pc, FnCompiler.pc, hcode, length_append]
    omega
  run := by
    intro T hT
    let T' : Nat → Given := fun i => if i ≤ fc.pc then T i else (T fc.pc).outside F
    have hold : ∀ i, i ≤ fc.pc → T' i = T i := fun i hi => if_pos hi
    have hnew : ∀ i, fc.pc < i → T' i = (T fc.pc).outside F := fun i hi => if_neg (by omega)
    -- on entry everything is known, later what lies outside of `F`
    have hwithin : ∀ i, fc.pc ≤ i → ((T fc.pc).outside F).Within (T' i) := by
      intro i hi
      rcases Nat.eq_or_lt_of_le hi with rfl | hlt
      · rw [hold _ le_rfl]
        exact Given.outside_within F _
      · rw [hnew i hlt]
        exact .refl _
    refine ⟨T', hT.append ops hcode hid hold ?_ ?_ ?_ ?_ ?_, hold, ?_⟩
    · intro i op hop pc' hpc'
      obtain ⟨hstore, _, htargets⟩ := hops i op hop
      refine ⟨(htargets pc' hpc').2, ?_⟩
      rw [hnew pc' (htargets pc' hpc').1]
      exact Op.outside_within_give hstore (hwithin _ (Nat.le_add_right _ _)) _ _
    · intro i fnId count hop
      exact absurd rfl ((hops i _ hop).2.1 fnId count)
    · intro x l hl
      rcases hlocals x l hl with hl | ⟨_, hslot⟩
      · exact Nat.lt_of_lt_of_le (hT.slots x l hl) hnext
      · exact hslot
    · intro x l b hl hb
      rcases hlocals x l hl with hl | ⟨htemp, _⟩
      · apply hwithin fc'.pc
        · rw [FnCompiler.pc, FnCompiler.pc, hcode, length_append]
          omega
        · rw [Given.outside_of_not (hfree hT.slots x l b hl hb)]
          exact hT.known x l b hl hb
      · rw [htemp] at hb
        cases hb
    · intro r hr
      rw [hrefs] at hr
      exact .inl hr
    · intro i hi _ slot hslot
      rcases Nat.eq_or_lt_of_le hi with rfl | hlt
      · rw [hold _ le_rfl]
      · rw [hnew i hlt, Given.outside_of_not]
        intro hF
        have := hframe slot hF
        omega

/-- An instruction that needs no slot and leads nowhere else. -/
def Op.Straight : Op → Prop
  | .storeLocal _ | .jump _ | .jumpIf _ | .jumpIfNot _ | .makeClosure _ _ => False
  | _ => True

theorem Op.Straight.inside (h : op.Straight) (F : Nat → Prop) (base : Nat) {length i : Nat}
    (hi : i < length) : op.Inside F base length i := by
  refine ⟨?_, ?_, ?_⟩
  · rintro slot rfl
    exact h.elim
  · rintro fnId count rfl
    exact h.elim
  · intro pc' hpc'
    have : pc' = base + i + 1 := by
      cases op <;> first
        | exact h.elim
        | exact mem_singleton.mp hpc'
        | cases hpc'
    omega

theorem tracks_code (ops : List Op)
    (hops : ∀ (i : Nat) (op : Op), ops[i]? = some op → op.Inside (fun _ => False) fc.pc ops.length i) :
    Tracks E n fc (fc.emitAll ops) :=
  tracks_block (fun _ => False) ops rfl rfl rfl le_rfl (fun _ _ => .inl) (fun _ => False.elim)
    (fun _ _ _ _ _ _ => id) hops

theorem tracks_emit (op : Op) (h : op.Straight) : Tracks E n fc (fc.emit op) := by
  refine tracks_code [op] ?_
  intro i op' hop
  rw [List.getElem?_eq_some_iff] at hop
  obtain ⟨hi, rfl⟩ := hop
  have : i = 0 := by simpa using hi
  subst this
  exact h.inside _ _ hi

/-- A slot for a temporary. -/
theorem tracks_bind (hn : n ≤ fc.nextLocal) (name : String) : Tracks E n fc (fc.bind name .temporary) := by
  refine tracks_block (· = fc.nextLocal) [.storeLocal fc.nextLocal] rfl rfl rfl
    (le_succ _) ?_ ?_ ?_ ?_
  · intro x l hl
    by_cases hx : x = name
    · subst hx
      have : Function.update fc.locals x _ x = some l := hl
      rw [update_self] at this
      cases this
      exact .inr ⟨rfl, lt_succ_self _⟩
    · have : Function.update fc.locals name _ x = some l := hl
      rw [update_of_ne hx] at this
      exact .inl this
  · rintro slot rfl
    exact hn
  · intro hslots x l b hl _
    exact (hslots x l hl).ne
  · intro i op hop
    rw [List.getElem?_eq_some_iff] at hop
    obtain ⟨hi, rfl⟩ := hop
    have : i = 0 := by simpa using hi
    subst this
    simp [Op.Inside, Op.targets]

theorem tracks_emitSwapTop2 (hn : n ≤ fc.nextLocal) : Tracks E n fc fc.emitSwapTop2 := by
  refine tracks_block (fc.nextLocal ≤ ·)
    [.storeLocal (fc.nextLocal + 1), .storeLocal fc.nextLocal, .loadLocal (fc.nextLocal + 1),
      .loadLocal fc.nextLocal] rfl rfl rfl (by show _ ≤ fc.nextLocal + 1 + 1; omega) ?_
      (fun slot hslot => hn.trans hslot) ?_ ?_
  · intro x l hl
    have hl : Function.update (Function.update fc.locals "__swap_a" (some ⟨fc.nextLocal, .temporary⟩))
      "__swap_b" (some ⟨fc.nextLocal + 1, .temporary⟩) x = some l := hl
    have hlast : fc.emitSwapTop2.nextLocal = fc.nextLocal + 2 := rfl
    rw [hlast]
    by_cases hb : x = "__swap_b"
    · subst hb
      rw [update_self] at hl
      cases hl
      exact .inr ⟨rfl, by show fc.nextLocal + 1 < _; omega⟩
    · rw [update_of_ne hb] at hl
      by_cases ha : x = "__swap_a"
      · subst ha
        rw [update_self] at hl
        cases hl
        exact .inr ⟨rfl, by show fc.nextLocal < _; omega⟩
      · rw [update_of_ne ha] at hl
        exact .inl hl
  · intro hslots x l b hl _
    have := hslots x l hl
    omega
  · intro i op hop
    rcases i with _ | _ | _ | _ | i <;> simp at hop <;> subst hop <;> simp [Op.Inside, Op.targets] <;>
      omega

/-- A slot for a binder: from now on it is known to hold what the binder gave. -/
theorem tracks_bind_binder (hn : n ≤ fc.nextLocal) (name : String) :
    Tracks E n fc (fc.bind name (.binder fc.binder)) where
  pc := by simp [FnCompiler.pc, FnCompiler.bind, FnCompiler.emit, FnCompiler.allocLocal]
  run := by
    intro T hT
    let T' : Nat → Given := fun i =>
      if i ≤ fc.pc then T i else Function.update (T fc.pc) fc.nextLocal (some fc.binder)
    have hold : ∀ i, i ≤ fc.pc → T' i = T i := fun i hi => if_pos hi
    have hnew : T' (fc.pc + 1) = Function.update (T fc.pc) fc.nextLocal (some fc.binder) :=
      if_neg (by omega)
    have hpc : (fc.bind name (.binder fc.binder)).pc = fc.pc + 1 := by
      simp [FnCompiler.pc, FnCompiler.bind, FnCompiler.emit, FnCompiler.allocLocal]
    have hlocals : ∀ x l, (fc.bind name (.binder fc.binder)).locals x = some l →
        l = ⟨fc.nextLocal, .binder fc.binder⟩ ∨ fc.locals x = some l := by
      intro x l hl
      have hl : Function.update fc.locals name _ x = some l := hl
      by_cases hx : x = name
      · subst hx
        rw [update_self] at hl
        cases hl
        exact .inl rfl
      · rw [update_of_ne hx] at hl
        exact .inr hl
    refine ⟨T', hT.append [.storeLocal fc.nextLocal] rfl rfl hold ?_ ?_ ?_ ?_
      (fun _ hr => .inl hr), hold, ?_⟩
    · intro i op hop pc' hpc'
      rw [List.getElem?_eq_some_iff] at hop
      obtain ⟨hi, rfl⟩ := hop
      have : i = 0 := by simpa using hi
      subst this
      have : pc' = fc.pc + 1 := mem_singleton.mp hpc'
      subst this
      refine ⟨le_rfl, ?_⟩
      rw [hnew, Nat.add_zero, hold _ le_rfl]
      exact .refl _
    · intro i fnId count hop
      rw [List.getElem?_eq_some_iff] at hop
      obtain ⟨hi, hop⟩ := hop
      have : i = 0 := by simpa using hi
      subst this
      cases hop
    · intro x l hl
      show l.slot < fc.nextLocal + 1
      rcases hlocals x l hl with rfl | hl
      · exact lt_succ_self _
      · exact lt_succ_of_lt (hT.slots x l hl)
    · intro x l b hl hb
      rw [hpc, hnew]
      rcases hlocals x l hl with rfl | hl
      · cases hb
        exact update_self _ _ _
      · rw [update_of_ne (hT.slots x l hl).ne]
        exact hT.known x l b hl hb
    · intro i hi hi' slot hslot
      rw [hpc] at hi'
      rcases Nat.eq_or_lt_of_le hi with rfl | hlt
      · rw [hold _ le_rfl]
      · have : i = fc.pc + 1 := by omega
        subst this
        rw [hnew, update_of_ne (by omega)]

/-! ## Names -/

/-- Code that stores nothing, with one name resolved at its start. -/
theorem tracks_note (ops : List Op) {name : String} {lexical : Option Denotation} {denotes : Denotation}
    (hops : ∀ op ∈ ops, op.Straight ∨ ∃ fnId, op = .makeClosure fnId 0 ∧ E fnId = none)
    (hwitnessed : ∀ T T', Sound E fc T → Extends fc.code (fc.code ++ ops) T T' →
      Witnessed (fc.code ++ ops) T' ⟨fc.pc, name, lexical, denotes⟩) :
    Tracks E n fc ((fc.note name lexical denotes).emitAll ops) where
  pc := by simp [FnCompiler.pc, FnCompiler.emitAll, FnCompiler.note]
  run := by
    intro T hT
    let T' : Nat → Given := fun i => if i ≤ fc.pc then T i else T fc.pc
    have hold : ∀ i, i ≤ fc.pc → T' i = T i := fun i hi => if_pos hi
    have hnew : ∀ i, fc.pc ≤ i → T' i = T fc.pc := by
      intro i hi
      rcases Nat.eq_or_lt_of_le hi with rfl | hlt
      · exact hold _ le_rfl
      · exact if_neg (by omega)
    have hpc : fc.pc ≤ ((fc.note name lexical denotes).emitAll ops).pc := by
      simp [FnCompiler.pc, FnCompiler.emitAll, FnCompiler.note]
    refine ⟨T', hT.append ops rfl rfl hold ?_ ?_ hT.slots ?_ ?_, hold, ?_⟩
    · intro i op hop pc' hpc'
      have hi := (List.getElem?_eq_some_iff.mp hop).1
      have hstraight : pc' = fc.pc + i + 1 ∧ ∀ σ, op.give fc.fnId (fc.pc + i) σ = σ := by
        rcases hops op (mem_of_getElem? hop) with h | ⟨fnId, rfl, _⟩
        · cases op <;> first
            | exact h.elim
            | exact ⟨mem_singleton.mp hpc', fun _ => rfl⟩
            | cases hpc'
        · exact ⟨mem_singleton.mp hpc', fun _ => rfl⟩
      rw [hstraight.1, hstraight.2, hnew _ (by omega), hnew _ (by omega)]
      exact ⟨by omega, .refl _⟩
    · intro i fnId count hop
      rcases hops _ (mem_of_getElem? hop) with h | ⟨fnId', heq, hE⟩
      · exact h.elim
      · cases heq
        rw [WellMade, hE]
    · intro x l b hl hb
      rw [hnew _ hpc]
      exact hT.known x l b hl hb
    · intro r hr
      rcases mem_cons.mp hr with rfl | hr
      · exact .inr (hwitnessed T T' hT ⟨fun pc op hop => getElem?_of_append ops hop, hold⟩)
      · exact .inl hr
    · intro i hi _ slot _
      rw [hnew i hi]

end Tracks

end LexLang.Compiler
