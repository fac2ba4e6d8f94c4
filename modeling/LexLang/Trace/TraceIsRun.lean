/-
# LexLang.Trace.TraceIsRun — when a trace is the run

`trace_is_run`: the trees that a recorder hands out list what its machines did, in every session whose steps are
`Plain`. A call fails before its body; an error leaves a loop from inside of a call, whose frame stays open; a
frame that is no call's ends in a tail call, which closes what is open around it: after any of these the trees
and what was done part.

The invariant (`Kept`) compares the recorder with the stacks of the machine: it lists what was done, and what it
holds open is what is under way.
-/
import LexLang.Trace.Session
import LexLang.Trace.Shows

namespace LexLang.Trace

open LexLang.Machine
open List Option

/-! ## Plain steps -/

section Plain

variable (host : Host) (session : Session) (input : Input) (budget : Budget)

/-- The call fails before its body. -/
def Session.refuses : Bool :=
  match session.happening host input budget with
  | some (.rejected ..) | some (.overflowed ..) => true
  | _ => false

/-- An error leaves a loop that has frames of calls. -/
def Session.escapesCall (o : Outcome) : Bool :=
  let kinds := session.runner.kinds
  match escape session.runner.vm o.vm with
  | some (base, _) => (kinds.take (kinds.length - base)).contains .call
  | none => false

/-- The innermost frame is no call's, and a call or an effect is under way around it. -/
def Session.enclosesEntry : Bool :=
  match session.runner.kinds with
  | .entry :: kinds => kinds.contains .call || !session.runner.effects.isEmpty
  | _ => false

/-- Such a frame ends in a tail call. -/
def Session.tailsEntry : Bool :=
  match session.happening host input budget with
  | some (.tailCalled _) | some (.tailAnswered ..) => session.enclosesEntry
  | _ => false

/-- **A step after which the trace still is the run.** -/
structure Plain (o : Outcome) : Prop where
  refuses : session.refuses host input budget = false
  escapesCall : session.escapesCall o = false
  tailsEntry : session.tailsEntry host input budget = false

end Plain

/-! ## The recorder and what is under way -/

/-- The forest lists `made`, and `open` is what is open in it. -/
structure Agrees (forest : OpenForest TraceNode) (made : List (Nat × TraceNode)) (under : List Nat) : Prop where
  entries : forest.entries = made
  positions : forest.positions = under

namespace Agrees

variable {forest : OpenForest TraceNode} {made : List (Nat × TraceNode)} {under : List Nat} {place : Nat}

theorem enter (h : Agrees forest made under) (node : TraceNode) :
    Agrees (forest.enter node) (made ++ [(under.length, node)]) (made.length :: under) where
  entries := by rw [forest.entries_enter, ← forest.length_positions, h.entries, h.positions]
  positions := by rw [forest.positions_enter, h.entries, h.positions]

theorem exit (h : Agrees forest made (place :: under)) (result : TraceNode → TraceNode) :
    Agrees (forest.exit result) (made.modify place fun entry => (entry.1, result entry.2)) under where
  entries := by rw [forest.entries_exit h.positions, h.entries]
  positions := forest.positions_exit h.positions result

/-- A node without children. -/
theorem leaf (h : Agrees forest made under) (node : TraceNode) (result : TraceNode → TraceNode) :
    Agrees ((forest.enter node).exit result) (made ++ [(under.length, result node)]) under := by
  have hexit := (h.enter node).exit result
  rwa [modify_append_cons] at hexit

theorem exit_closed (h : Agrees forest made []) (result : TraceNode → TraceNode) :
    Agrees (forest.exit result) made [] := by
  have hpath : forest.path = [] := by
    rw [← length_eq_zero_iff, ← forest.length_positions, h.positions]
    rfl
  unfold OpenForest.exit
  rw [hpath]
  exact h

end Agrees

/-! ## What is under way, after a step -/

section Underway

variable {natives parts : List Native} {calls : List (Option Nat)} {effects : List Nat} {base : Nat}

theorem underway_append (h : Parts parts) :
    underway (parts ++ natives) calls effects = underway natives calls effects := by
  induction parts with
  | nil => rfl
  | cons native parts ih =>
    have hnative := h native (mem_cons_self ..)
    have hrest := ih fun other hother => h other (mem_cons_of_mem _ hother)
    cases native with
    | runTo base => exact nomatch hnative
    | effectCall => exact nomatch hnative
    | _ => exact hrest

/-- A frame in the loop. -/
theorem underway_cons (hbase : base ≤ calls.length) (call : Option Nat) :
    underway (.runTo base :: natives) (call :: calls) effects =
      call.toList ++ underway (.runTo base :: natives) calls effects := by
  have hlength : (call :: calls).length - base = calls.length - base + 1 := by
    rw [length_cons]
    omega
  rw [underway, hlength]
  cases call with
  | none => rfl
  | some place => rfl

/-- A loop that has no frames. -/
theorem underway_runTo (hbase : calls.length ≤ base) :
    underway (.runTo base :: natives) calls effects = underway natives calls effects := by
  rw [underway, Nat.sub_eq_zero_of_le hbase]
  rfl

theorem filterMap_eq_nil (hnone : ∀ call ∈ calls, call = none) : calls.filterMap id = [] := by
  rw [filterMap_eq_nil_iff]
  exact hnone

/-- Frames without calls are not seen, where every loop lies below them. -/
theorem underway_drop (n : Nat) (hnone : ∀ call ∈ calls.take n, call = none)
    (hbases : ∀ base ∈ bases natives, base + n ≤ calls.length) :
    underway natives (calls.drop n) effects = underway natives calls effects := by
  induction natives generalizing effects with
  | nil => rfl
  | cons native natives ih =>
    cases native with
    | runTo base =>
      have hbase := hbases base (mem_cons_self ..)
      have hsplit : calls.length - base = n + (calls.length - n - base) := by omega
      rw [underway, underway, length_drop, hsplit, take_add, filterMap_append,
        filterMap_eq_nil hnone, drop_drop]
      rfl
    | effectCall =>
      rw [underway, underway, ih hbases]
    | _ => exact ih hbases

/-- Without a call and an effect nothing is under way. -/
theorem underway_eq_nil (hnone : ∀ call ∈ calls, call = none) : underway natives calls [] = [] := by
  induction natives generalizing calls with
  | nil => rfl
  | cons native natives ih =>
    cases native with
    | runTo base =>
      rw [underway, ih fun call hcall => hnone call (mem_of_mem_drop hcall), append_nil]
      exact filterMap_eq_nil fun call hcall => hnone call (mem_of_mem_take hcall)
    | effectCall => exact ih hnone
    | _ => exact ih hnone

end Underway

/-! ## The invariant -/

def isEffect : Native → Bool
  | .effectCall => true
  | _ => false

/-- **The recorder and the account go together with the stacks of a machine**: its natives, so many frames, and
their kinds. -/
structure Balanced (natives : List Native) (depth : Nat) (kinds : List FrameKind) (session : Session) : Prop where
  bounded : (depth :: bases natives).Pairwise (· > ·)
  length : kinds.length = depth
  marked : session.runner.calls.map isSome = kinds.map (· == .call)
  counted : session.runner.effects.length = natives.countP isEffect
  agrees : Agrees session.recorder.nodes session.made
    (underway natives session.runner.calls session.runner.effects)

section Balanced

variable {shown : Shown} {host : Host} {input : Input} {budget : Budget} {session : Session} {vm vm' : Vm}
  {natives rest : List Native} {depth base : Nat} {kinds : List FrameKind}

theorem Parts.countP_eq (h : Parts natives) : natives.countP isEffect = 0 := by
  rw [countP_eq_zero]
  intro native hnative
  have hpart := h native hnative
  cases native with
  | effectCall => exact nomatch hpart
  | _ => exact nofun

theorem Balanced.length_calls (h : Balanced natives depth kinds session) : session.runner.calls.length = depth := by
  have hlength := congrArg List.length h.marked
  rw [length_map, length_map, h.length] at hlength
  exact hlength

variable {calls : List (Option Nat)}

/-- Only a call's frame has a call. -/
theorem none_of_kinds (hmarked : calls.map isSome = kinds.map (· == .call)) (hkinds : kinds.contains .call = false) :
    ∀ call ∈ calls, call = none := by
  intro call hcall
  cases hcases : call with
  | none => rfl
  | some place =>
    subst hcases
    have hsome : true ∈ calls.map isSome := List.mem_map.mpr ⟨_, hcall, rfl⟩
    rw [hmarked] at hsome
    obtain ⟨kind, hkind, htrue⟩ := List.mem_map.mp hsome
    have hcall := beq_iff_eq.mp htrue
    subst hcall
    rw [contains_eq_mem, decide_eq_false_iff_not] at hkinds
    exact absurd hkind hkinds

theorem Balanced.none_of_take (h : Balanced natives depth kinds session) {n : Nat}
    (hkinds : (kinds.take n).contains .call = false) : ∀ call ∈ session.runner.calls.take n, call = none := by
  apply none_of_kinds _ hkinds
  rw [map_take, h.marked, map_take]

/-! ### Silent steps -/

theorem escape_of_length (h : (bases vm.natives).length ≤ (bases vm'.natives).length) : escape vm vm' = none := by
  unfold escape
  split
  · rename_i e base outer _ houter
    rw [houter, length_cons] at h
    rw [if_neg (by omega)]
  · rfl

theorem escape_of_control (h : ∀ e, vm'.control ≠ .finished (.error e)) : escape vm vm' = none := by
  unfold escape
  split
  · rename_i e base outer he _
    exact absurd he (h e)
  · rfl

/-- What a session is after an error has left a loop, if one has. -/
def afterEscape (host : Host) (session : Session) : Option (Nat × VmError) → Session
  | some (base, e) => session.abandon host base e
  | none => session

/-- Frames without calls are abandoned without a trace. -/
theorem abandon_eq {e : VmError} {n : Nat} (hn : session.runner.calls.length - base = n)
    (hnone : ∀ call ∈ session.runner.calls.take n, call = none) : session.abandon host base e = session := by
  have hsettled : ∀ (ended : List (Option Nat)), (∀ call ∈ ended, call = none) →
      ended.foldl (fun session call => session.settle call (Session.setError (host.debugError e))) session =
        session := by
    intro ended hover
    induction ended with
    | nil => rfl
    | cons call ended ih =>
      obtain rfl := hover call (mem_cons_self ..)
      exact ih fun call hcall => hover call (mem_cons_of_mem _ hcall)
  have hmap : (session.runner.calls.take n).map (fun _ => (none : Option Nat)) = session.runner.calls.take n := by
    rw [map_congr_left (fun call hcall => (hnone call hcall).symm), List.map_id']
  unfold Session.abandon
  simp only [hn]
  rw [hsettled _ hnone, hmap, take_append_drop]
  rfl

/-- **A silent step keeps the balance**, unless an error leaves a loop from inside of a call. -/
theorem Balanced.silent (h : Balanced vm.natives vm.frames.length kinds session) (hsilent : Silent vm vm')
    (hescape : ∀ base e, escape vm vm' = some (base, e) → (kinds.take (kinds.length - base)).contains .call = false) :
    vm'.control = .crashed ∨
      Balanced vm'.natives vm'.frames.length kinds (afterEscape host session (escape vm vm')) := by
  cases hsilent with
  | crashed hcontrol => exact .inl hcontrol
  | stay popped pushed rest hpopped hpushed hnatives hnatives' hframes =>
    have hbases : bases vm'.natives = bases vm.natives := by
      rw [hnatives, hnatives', bases_append, bases_append, hpopped.bases_eq, hpushed.bases_eq]
    right
    rw [escape_of_length (congrArg List.length hbases).ge]
    refine ⟨?_, ?_, h.marked, ?_, ?_⟩
    · rw [hframes, hbases]
      exact h.bounded
    · rw [hframes]
      exact h.length
    · have heffects := h.counted
      rw [hnatives, countP_append, hpopped.countP_eq] at heffects
      rw [hnatives', countP_append, hpushed.countP_eq]
      exact heffects
    · have hagrees := h.agrees
      rw [hnatives, underway_append hpopped] at hagrees
      rw [hnatives', underway_append hpushed]
      exact hagrees
  | fail popped base rest e hpopped hnatives hnatives' hframes hcontrol =>
    right
    have hbases : bases vm.natives = base :: bases rest := by
      rw [hnatives, bases_append, hpopped.bases_eq]
      rfl
    have hesc : escape vm vm' = some (base, e) := by
      unfold escape
      rw [hcontrol, hbases]
      dsimp only
      rw [hnatives', if_pos rfl]
    have hlength := h.length_calls
    have hnone := h.none_of_take (hescape base e hesc)
    rw [h.length, ← hlength] at hnone
    have hbounded := h.bounded
    rw [hbases] at hbounded
    rw [hesc]
    show Balanced _ _ _ (session.abandon host base e)
    rw [abandon_eq rfl hnone]
    refine ⟨?_, hframes ▸ h.length, h.marked, ?_, ?_⟩
    · rw [hframes, hnatives']
      exact hbounded.sublist (.cons_cons _ (.cons _ (.refl _)))
    · have heffects := h.counted
      rw [hnatives, countP_append, hpopped.countP_eq, countP_cons_of_neg (by exact nofun)] at heffects
      rw [hnatives']
      omega
    · have hagrees := h.agrees
      have hbelow : ∀ b ∈ bases rest, b < base :=
        (pairwise_cons.mp (pairwise_cons.mp hbounded).2).1
      have hdepth : base < vm.frames.length := (pairwise_cons.mp hbounded).1 base (mem_cons_self ..)
      rw [hnatives, underway_append hpopped, underway] at hagrees
      rw [filterMap_eq_nil hnone,
        underway_drop _ hnone fun b hb => by have := hbelow b hb; omega] at hagrees
      rw [hnatives']
      exact hagrees

/-! ### Calls -/

/-- The recorder is told, before the account is kept. -/
def toldSession (shown : Shown) (session : Session) (calls : List TracerCall) : Session :=
  { session with recorder := session.recorder.tellAll shown calls }

/-- The invariant, for the machine of a session. -/
def Session.Even (session : Session) : Prop :=
  Balanced session.runner.vm.natives session.runner.vm.frames.length session.runner.kinds session

variable {c : CallSite} {v : Value}

variable (shown host) in
theorem Session.Even.entered (h : session.Even) :
    Balanced (.runTo session.runner.vm.frames.length :: session.runner.vm.natives)
      (session.runner.vm.frames.length + 1) (.entry :: session.runner.kinds)
      ((toldSession shown session []).account shown host .entered) := by
  have hlength := h.length_calls
  refine ⟨?_, ?_, ?_, h.counted, ?_⟩
  · show List.Pairwise _ (_ :: session.runner.vm.frames.length :: bases session.runner.vm.natives)
    rw [pairwise_cons]
    refine ⟨fun base hbase => ?_, h.bounded⟩
    rcases mem_cons.mp hbase with rfl | hbase
    · omega
    · have hlt := (pairwise_cons.mp h.bounded).1 base hbase
      omega
  · rw [length_cons, h.length]
  · show (none :: session.runner.calls).map isSome = _
    rw [map_cons, h.marked]
    rfl
  · show Agrees session.recorder.nodes session.made
      (Trace.underway (.runTo _ :: session.runner.vm.natives) (none :: session.runner.calls) session.runner.effects)
    rw [underway_cons (by omega), underway_runTo (by omega)]
    exact h.agrees

/-- The loops stay below the frames when there is one more. -/
theorem bounded_succ (h : (depth :: bases natives).Pairwise (· > ·)) :
    ((depth + 1) :: bases natives).Pairwise (· > ·) := by
  rw [pairwise_cons] at h ⊢
  refine ⟨fun base hbase => ?_, h.2⟩
  have hlt := h.1 base hbase
  omega

variable (shown host) in
theorem Session.Even.invoked (h : session.Even) (hloop : OnLoop session.runner.vm.natives) :
    Balanced session.runner.vm.natives (session.runner.vm.frames.length + 1) (.call :: session.runner.kinds)
      ((toldSession shown session [.enter_call c.nodeId c.name c.args]).account shown host (.invoked c)) := by
  have hlength := h.length_calls
  obtain ⟨base, rest, hnatives⟩ := hloop
  refine ⟨bounded_succ h.bounded, ?_, ?_, h.counted, ?_⟩
  · rw [length_cons, h.length]
  · show (some session.made.length :: session.runner.calls).map isSome = _
    rw [map_cons, h.marked]
    rfl
  · have hbase : base < session.runner.vm.frames.length := by
      have hbounded := h.bounded
      rw [hnatives] at hbounded
      exact (pairwise_cons.mp hbounded).1 base (mem_cons_self ..)
    have hagrees := h.agrees.enter (Session.callNode shown c)
    show Agrees (session.recorder.nodes.enter (Session.callNode shown c))
      (session.made ++ [(session.underway.length, Session.callNode shown c)])
      (Trace.underway session.runner.vm.natives (some session.made.length :: session.runner.calls)
        session.runner.effects)
    rw [hnatives, underway_cons (by omega), ← hnatives]
    exact hagrees

variable (shown host) in
theorem Session.Even.answered (h : session.Even) :
    Balanced session.runner.vm.natives session.runner.vm.frames.length session.runner.kinds
      ((toldSession shown session [.enter_call c.nodeId c.name c.args, .exit_ok v]).account shown host
        (.answered c v)) where
  bounded := h.bounded
  length := h.length
  marked := h.marked
  counted := h.counted
  agrees := h.agrees.leaf (Session.callNode shown c) (Session.setOutput (value_to_json shown v))

/-! ### The innermost frame -/

/-- The innermost frame, and what is below it. -/
structure Innermost (session : Session) (base : Nat) (rest : List Native) (kind : FrameKind)
    (kinds : List FrameKind) (call : Option Nat) (calls : List (Option Nat)) : Prop where
  hkinds : session.runner.kinds = kind :: kinds
  hcalls : session.runner.calls = call :: calls
  marked : call.isSome = (kind == .call)
  below : calls.map isSome = kinds.map (· == .call)
  length : kinds.length + 1 = session.runner.vm.frames.length
  hbase : base ≤ calls.length
  agrees : Agrees session.recorder.nodes session.made
    (call.toList ++ underway (.runTo base :: rest) calls session.runner.effects)

theorem Session.Even.innermost (h : session.Even) (hnatives : session.runner.vm.natives = .runTo base :: rest) :
    ∃ kind kinds call calls, Innermost session base rest kind kinds call calls := by
  have hlength := h.length_calls
  have hkinds := h.length
  have hmarked := h.marked
  have hagrees := h.agrees
  have hbase : base < session.runner.vm.frames.length := by
    have hbounded := h.bounded
    rw [hnatives] at hbounded
    exact (pairwise_cons.mp hbounded).1 base (mem_cons_self ..)
  cases hcalls : session.runner.calls with
  | nil =>
    rw [hcalls, length_nil] at hlength
    omega
  | cons call calls =>
    cases hcases : session.runner.kinds with
    | nil =>
      rw [hcases, length_nil] at hkinds
      omega
    | cons kind kinds =>
      rw [hcalls, length_cons] at hlength
      rw [hcases] at hkinds
      rw [hcalls, hcases] at hmarked
      obtain ⟨hhead, htail⟩ := List.cons.inj hmarked
      rw [hnatives, hcalls, underway_cons (by omega)] at hagrees
      exact ⟨kind, kinds, call, calls, hcases, hcalls, hhead, htail, hkinds, by omega, hagrees⟩

variable {call : Option Nat}

/-- What a frame's call becomes, when the recorder closes it. -/
theorem Agrees.settle {forest : OpenForest TraceNode} {made : List (Nat × TraceNode)} {under : List Nat}
    (h : Agrees forest made (call.toList ++ under)) (result : TraceNode → TraceNode) :
    Agrees (if call.isSome then forest.exit result else forest) (Session.settled made call result) under := by
  cases call with
  | none => exact h
  | some place => exact h.exit result

variable {kind : FrameKind}

/-- **A frame is popped**, and its call is settled. -/
theorem Innermost.leave
    {left : Session} (hbounded : (session.runner.vm.frames.length :: bases (.runTo base :: rest)).Pairwise (· > ·))
    (hcounted : session.runner.effects.length = (Native.runTo base :: rest).countP isEffect)
    (h : Innermost session base rest kind kinds call calls)
    (hnatives : session.runner.vm.natives = .runTo base :: rest) (hleaves : Leaves session.runner.vm vm' base rest)
    (hcalls : left.runner.calls = calls) (heffects : left.runner.effects = session.runner.effects)
    (hagrees : Agrees left.recorder.nodes left.made (underway (.runTo base :: rest) calls session.runner.effects)) :
    Balanced vm'.natives vm'.frames.length kinds left := by
  have hlength := h.length
  have hbelow := (pairwise_cons.mp hbounded).2
  have hsame : calls.length = kinds.length := by
    have hmap := congrArg List.length h.below
    rw [length_map, length_map] at hmap
    exact hmap
  cases hleaves with
  | ret hnatives' hframes hbase =>
    refine ⟨?_, by omega, hcalls ▸ h.below, ?_, ?_⟩
    · rw [hnatives', hnatives]
      show List.Pairwise _ (_ :: base :: bases rest)
      rw [pairwise_cons]
      refine ⟨fun b hb => ?_, hbelow⟩
      rcases mem_cons.mp hb with rfl | hb
      · exact hbase
      · have hlt := (pairwise_cons.mp hbelow).1 b hb
        omega
    · rw [heffects, hnatives', hnatives]
      exact hcounted
    · rw [hcalls, heffects, hnatives', hnatives]
      exact hagrees
  | succeed v hnatives' hframes hbase hcontrol =>
    have hdepth : base = vm'.frames.length := by
      have hle := h.hbase
      omega
    refine ⟨?_, by omega, hcalls ▸ h.below, ?_, ?_⟩
    · rw [hnatives', ← hdepth]
      exact hbelow
    · rw [heffects, hnatives', hcounted, countP_cons_of_neg (by exact nofun)]
    · rw [underway_runTo (by omega)] at hagrees
      rw [hcalls, heffects, hnatives']
      exact hagrees

theorem Session.Even.bounded_of (h : session.Even) (hnatives : session.runner.vm.natives = natives) :
    (session.runner.vm.frames.length :: bases natives).Pairwise (· > ·) := hnatives ▸ h.bounded

theorem Session.Even.counted_of (h : session.Even) (hnatives : session.runner.vm.natives = natives) :
    session.runner.effects.length = natives.countP isEffect := hnatives ▸ h.counted

/-- A session whose innermost call is settled. -/
theorem endCall_made (h : Innermost session base rest kind kinds call calls) (recorder : RecorderState)
    (result : TraceNode → TraceNode) :
    ({ session with recorder } : Session).endCall result =
      { session with
        recorder
        made := Session.settled session.made call result
        runner := { session.runner with calls } } := by
  unfold Session.endCall
  rw [h.hcalls]
  rfl

variable (shown host) in
theorem Session.Even.returned (h : session.Even) (hnatives : session.runner.vm.natives = .runTo base :: rest)
    (hleaves : Leaves session.runner.vm vm' base rest) :
    Balanced vm'.natives vm'.frames.length session.runner.kinds.tail
      ((toldSession shown session ((Happening.returned v).tracerCalls (session.runner.kinds.headD .entry))).account
        shown host (.returned v)) := by
  obtain ⟨kind, kinds, call, calls, hinner⟩ := h.innermost hnatives
  have hsettled := hinner.agrees.settle (Session.setOutput (value_to_json shown v))
  have hmarked := hinner.marked
  have hend := endCall_made hinner (session.recorder.tellAll shown ((Happening.returned v).tracerCalls kind))
    (Session.setOutput (value_to_json shown v))
  rw [hinner.hkinds]
  show Balanced _ _ kinds (({ session with
    recorder := session.recorder.tellAll shown ((Happening.returned v).tracerCalls kind) } : Session).endCall _)
  rw [hend]
  refine hinner.leave (h.bounded_of hnatives) (h.counted_of hnatives) hnatives hleaves rfl rfl ?_
  cases kind with
  | call =>
    rw [if_pos (show call.isSome = true from hmarked)] at hsettled
    exact hsettled
  | entry =>
    rw [if_neg (by rw [show call.isSome = false from hmarked]; exact nofun)] at hsettled
    exact hsettled

/-- Where a tail call is told, the recorder closes the innermost call and nothing else. -/
theorem Innermost.tail_exit (hinner : Innermost session base rest kind kinds call calls)
    (htail : kind = .entry → kinds.contains .call = false ∧ session.runner.effects = [])
    (result : TraceNode → TraceNode) : Agrees (session.recorder.nodes.exit result)
      (Session.settled session.made call result)
      (Trace.underway (.runTo base :: rest) calls session.runner.effects) := by
  have hsettled := hinner.agrees.settle result
  have hmarked := hinner.marked
  cases kind with
  | call =>
    rw [if_pos (show call.isSome = true from hmarked)] at hsettled
    exact hsettled
  | entry =>
    rw [if_neg (by rw [show call.isSome = false from hmarked]; exact nofun)] at hsettled
    obtain ⟨hkinds, heffects⟩ := htail rfl
    rw [heffects, underway_eq_nil (none_of_kinds hinner.below hkinds)] at hsettled ⊢
    exact hsettled.exit_closed result

/-- Around a frame that is no call's nothing is under way. -/
theorem Innermost.closed_of (hinner : Innermost session base rest kind kinds call calls)
    (h : session.enclosesEntry = false) (hkind : kind = .entry) :
    kinds.contains .call = false ∧ session.runner.effects = [] := by
  subst hkind
  unfold Session.enclosesEntry at h
  rw [hinner.hkinds] at h
  simp only [Bool.or_eq_false_iff, Bool.not_eq_false', List.isEmpty_iff] at h
  exact h

variable (shown host) in
theorem Session.Even.tailCalled (h : session.Even)
    (hnatives : session.runner.vm.natives = .runTo base :: rest)
    (hinner : Innermost session base rest kind kinds call calls)
    (htail : kind = .entry → kinds.contains .call = false ∧ session.runner.effects = []) :
    Balanced session.runner.vm.natives session.runner.vm.frames.length (.call :: kinds)
      ((toldSession shown session [.exit_call_tail, .enter_call c.nodeId c.name c.args]).account shown host
        (.tailCalled c)) := by
  have hexit := hinner.tail_exit htail (Session.setOutput .null)
  have hend := endCall_made hinner
    (session.recorder.tellAll shown [.exit_call_tail, .enter_call c.nodeId c.name c.args])
    (Session.setOutput .null)
  have hlength := hinner.length
  have hbase := hinner.hbase
  unfold toldSession Session.account
  rw [hend]
  refine ⟨h.bounded, by rw [length_cons]; exact hlength, ?_, h.counted, ?_⟩
  · show (some _ :: calls).map isSome = _
    rw [map_cons, hinner.below]
    rfl
  · have hagrees := hexit.enter (Session.callNode shown c)
    show Agrees _ _ (Trace.underway session.runner.vm.natives (some _ :: calls) session.runner.effects)
    rw [hnatives, underway_cons hbase, ← hnatives]
    rw [← hnatives] at hagrees
    exact hagrees

variable (shown host) in
theorem Session.Even.tailAnswered (h : session.Even)
    (hnatives : session.runner.vm.natives = .runTo base :: rest) (hleaves : Leaves session.runner.vm vm' base rest)
    (hinner : Innermost session base rest kind kinds call calls)
    (htail : kind = .entry → kinds.contains .call = false ∧ session.runner.effects = []) :
    Balanced vm'.natives vm'.frames.length kinds
      ((toldSession shown session [.exit_call_tail, .enter_call c.nodeId c.name c.args, .exit_ok v]).account shown
        host (.tailAnswered c v)) := by
  have hexit := hinner.tail_exit htail (Session.setOutput .null)
  have hend := endCall_made hinner
    (session.recorder.tellAll shown [.exit_call_tail, .enter_call c.nodeId c.name c.args, .exit_ok v])
    (Session.setOutput .null)
  unfold toldSession Session.account
  rw [hend]
  refine hinner.leave (h.bounded_of hnatives) (h.counted_of hnatives) hnatives hleaves rfl rfl ?_
  have hagrees := hexit.leaf (Session.callNode shown c) (Session.setOutput (value_to_json shown v))
  rw [← hnatives] at hagrees ⊢
  exact hagrees

/-! ### Effects -/

variable (shown host) in
theorem Session.Even.effectStarted (h : session.Even) {c : EffectSite} :
    Balanced (.effectCall :: session.runner.vm.natives) session.runner.vm.frames.length session.runner.kinds
      ((toldSession shown session [.enter_effect c.nodeId c.kind c.op c.args]).account shown host
        (.effectStarted c)) where
  bounded := h.bounded
  length := h.length
  marked := h.marked
  counted := by
    show (session.made.length :: session.runner.effects).length = _
    rw [length_cons, h.counted, countP_cons_of_pos rfl]
  agrees := h.agrees.enter (Session.effectNode shown c)

variable (shown host) in
theorem Session.Even.effectEnded (h : session.Even) (hnatives : session.runner.vm.natives = .effectCall :: rest)
    (result : Except String Value) : Balanced rest session.runner.vm.frames.length session.runner.kinds
      ((toldSession shown session ((Happening.effectEnded result).tracerCalls
        (session.runner.kinds.headD .entry))).account shown host (.effectEnded result)) := by
  have hcounted := h.counted_of hnatives
  have hagrees := h.agrees
  have hbounded : (session.runner.vm.frames.length :: bases (.effectCall :: rest)).Pairwise (· > ·) :=
    h.bounded_of hnatives
  rw [countP_cons_of_pos rfl] at hcounted
  cases heffects : session.runner.effects with
  | nil =>
    rw [heffects] at hcounted
    exact nomatch hcounted
  | cons place effects =>
    rw [heffects] at hcounted
    rw [hnatives, heffects] at hagrees
    have hexit := hagrees.exit
    cases result with
    | ok | error =>
      unfold toldSession Session.account
      rw [heffects]
      exact ⟨hbounded, h.length, h.marked, Nat.succ.inj hcounted, hexit _⟩

/-! ### One step -/

/-- The account of a step, before it is seen whether an error leaves a loop. -/
def accounted (shown : Shown) (host : Host) (session : Session) : Option Happening → Session
  | some happening =>
    (toldSession shown session (happening.tracerCalls (session.runner.kinds.headD .entry))).account shown host
      happening
  | none => session

theorem after_eq {happening : Option Happening} {o : Outcome}
    (hhappening : session.happening host input budget = happening) : session.after shown host input budget o =
      { afterEscape host (accounted shown host session happening) (escape session.runner.vm o.vm) with
        runner :=
          { (afterEscape host (accounted shown host session happening)
              (escape session.runner.vm o.vm)).runner with
            vm := o.vm, kinds := Session.kindsAfter session.runner.kinds happening } } := by
  unfold Session.after Session.tells
  rw [hhappening]
  cases happening with
  | none | some happening => cases escape session.runner.vm o.vm with
    | none => rfl
    | some left => rfl

/-- Only the loops under way count. -/
theorem escape_congr {u : Vm} (h : bases u.natives = bases vm.natives) : escape u vm' = escape vm vm' := by
  unfold escape
  rw [h]

theorem Leaves.escape_eq (h : Leaves vm vm' base rest) : escape vm vm' = none := by
  cases h with
  | ret hnatives' hframes hbase => exact escape_of_length (by rw [hnatives'])
  | succeed v hnatives' hframes hbase hcontrol => exact escape_of_control (by rw [hcontrol]; exact nofun)

/-- **One step keeps the balance.** -/
theorem Session.Even.step (h : session.Even) (hplaced : Placed session.runner.vm) {o : Outcome}
    (hstep : session.runner.vm.step session.runner.program host input budget = some o)
    (hplain : Plain host session input budget o) : o.vm.control = .crashed ∨ Balanced o.vm.natives o.vm.frames.length
        (Session.kindsAfter session.runner.kinds (session.happening host input budget))
        (afterEscape host (accounted shown host session (session.happening host input budget))
          (escape session.runner.vm o.vm)) := by
  have hshows := (step_shows session.runner.nodeIds hplaced hstep).shows
  have hescape : ∀ base e, escape session.runner.vm o.vm = some (base, e) →
      (session.runner.kinds.take (session.runner.kinds.length - base)).contains .call = false := by
    intro base e hesc
    have hescapes := hplain.escapesCall
    unfold Session.escapesCall at hescapes
    rw [hesc] at hescapes
    exact hescapes
  have hrefuses := hplain.refuses
  have htails := hplain.tailsEntry
  unfold Session.refuses at hrefuses
  unfold Session.tailsEntry at htails
  change Shows _ (session.happening host input budget) _ at hshows
  generalize session.happening host input budget = happening at hshows hrefuses htails ⊢
  cases hshows with
  | crashed hcontrol => exact .inl hcontrol
  | silent hsilent => exact Balanced.silent h hsilent hescape
  | entered hnatives' hframes =>
    right
    have hmore : (bases session.runner.vm.natives).length ≤ (bases o.vm.natives).length := by
      rw [hnatives']
      exact Nat.le_succ _
    rw [escape_of_length hmore, hnatives', hframes]
    exact h.entered shown host
  | invoked c hloop hnatives' hframes hcontrol =>
    right
    rw [escape_of_control (by rw [hcontrol]; exact nofun), hnatives', hframes]
    exact h.invoked shown host hloop
  | rejected c e hsilent hcontrol => exact nomatch hrefuses
  | overflowed c e hsilent hcontrol => exact nomatch hrefuses
  | answered c v hnatives' hframes hcontrol =>
    right
    rw [escape_of_control (by rw [hcontrol]; exact nofun), hnatives', hframes]
    exact h.answered shown host
  | tailCalled c hloop hnatives' hframes hcontrol =>
    right
    obtain ⟨base, rest, hnatives⟩ := hloop
    obtain ⟨kind, kinds, call, calls, hinner⟩ := h.innermost hnatives
    have htail := hinner.closed_of htails
    rw [escape_of_control (by rw [hcontrol]; exact nofun), hnatives', hframes, hinner.hkinds]
    exact h.tailCalled shown host hnatives hinner htail
  | tailAnswered c v base rest hnatives hleaves =>
    right
    obtain ⟨kind, kinds, call, calls, hinner⟩ := h.innermost hnatives
    have htail := hinner.closed_of htails
    rw [hleaves.escape_eq, hinner.hkinds]
    exact h.tailAnswered shown host hnatives hleaves hinner htail
  | returned v base rest hnatives hleaves =>
    right
    rw [hleaves.escape_eq]
    exact h.returned shown host hnatives hleaves
  | effectStarted c hsilent =>
    have heffect : Balanced
        ({ session.runner.vm with natives := .effectCall :: session.runner.vm.natives } : Vm).natives
        session.runner.vm.frames.length session.runner.kinds
        (accounted shown host session (some (.effectStarted c))) := h.effectStarted shown host
    exact heffect.silent hsilent hescape
  | effectEnded result rest hnatives hsilent =>
    have hbases : bases ({ session.runner.vm with natives := rest } : Vm).natives =
        bases session.runner.vm.natives := by
      rw [hnatives]
      rfl
    rw [← escape_congr hbases] at hescape ⊢
    exact (h.effectEnded shown host hnatives result).silent hsilent hescape

/-! ### Whole sessions -/

/-- A machine that is not running, as it was left. -/
structure Resting (runner : Runner) : Prop where
  rest : runner.AtRest
  length : runner.kinds.length = runner.vm.frames.length
  marked : runner.calls.map isSome = runner.kinds.map (· == .call)
  effects : runner.effects = []

theorem Runner.AtRest.idle {runner : Runner} (h : runner.AtRest) :
    Calm runner.vm.control ∧ ¬ runner.vm.control.Effectful := by
  rcases h.control with hidle | ⟨result, hfinished⟩
  · rw [hidle]
    exact ⟨trivial, id⟩
  · rw [hfinished]
    exact ⟨trivial, id⟩

theorem Runner.AtRest.not_crashed {runner : Runner} (h : runner.AtRest) : runner.vm.control ≠ .crashed := by
  rcases h.control with hidle | ⟨result, hfinished⟩
  · rw [hidle]
    exact nofun
  · rw [hfinished]
    exact nofun

structure Session.Kept (session : Session) : Prop where
  even : session.Even
  placed : Placed session.runner.vm
  waiting : ∀ runner ∈ session.waiting, Resting runner

/-- Nothing is under way on a machine that is not running. -/
theorem Session.Even.agrees_of_rest (h : session.Even) (hrest : session.runner.AtRest) :
    Agrees session.recorder.nodes session.made [] := by
  have hagrees := h.agrees
  rw [hrest.natives] at hagrees
  exact hagrees

theorem Session.Even.resting (h : session.Even) (hrest : session.runner.AtRest) : Resting session.runner where
  rest := hrest
  length := h.length
  marked := h.marked
  effects := by
    have hcounted := h.counted
    rw [hrest.natives] at hcounted
    exact eq_nil_of_length_eq_zero hcounted

/-- Another machine is at work, or the same one anew. -/
theorem Resting.kept {runner : Runner} (h : Resting runner) (hsession : session.runner = { runner with vm })
    (hnatives : vm.natives = []) (hframes : vm.frames = runner.vm.frames)
    (hidle : Calm vm.control ∧ ¬ vm.control.Effectful)
    (hagrees : Agrees session.recorder.nodes session.made []) (hwaiting : ∀ r ∈ session.waiting, Resting r) :
    session.Kept where
  even := by
    unfold Session.Even
    rw [hsession]
    rw [hnatives, hframes]
    refine ⟨pairwise_singleton _ _, h.length, ?_, ?_, ?_⟩
    · rw [hsession]
      exact h.marked
    · rw [hsession]
      exact congrArg List.length h.effects
    · exact hagrees
  placed := by
    rw [hsession]
    exact ⟨hnatives ▸ trivial, .inl hidle.1, fun heffectful => (hidle.2 heffectful).elim⟩
  waiting := hwaiting

theorem resting_new (program : Program) (nodeIds : Nat → Nat → String) (stepLimit : Nat) :
    Resting (.new program nodeIds stepLimit) where
  rest := ⟨rfl, .inl rfl⟩
  length := rfl
  marked := rfl
  effects := rfl

theorem waiting_abandon (e : VmError) : (session.abandon host base e).waiting = session.waiting := by
  have hsettled : ∀ (ended : List (Option Nat)) (session : Session),
      (ended.foldl (fun session call => session.settle call (Session.setError (host.debugError e)))
        session).waiting = session.waiting := by
    intro ended
    induction ended with
    | nil => exact fun _ => rfl
    | cons call ended ih => exact fun session => ih _
  exact hsettled _ session

theorem waiting_account (happening : Happening) :
    (session.account shown host happening).waiting = session.waiting := by
  cases happening with
  | effectEnded result => cases result <;> rfl
  | _ => rfl

theorem waiting_after {o : Outcome} : (session.after shown host input budget o).waiting = session.waiting := by
  rw [after_eq rfl]
  show (afterEscape host (accounted shown host session _) _).waiting = _
  have haccounted : (accounted shown host session (session.happening host input budget)).waiting =
      session.waiting := by
    cases session.happening host input budget with
    | none => rfl
    | some happening => exact waiting_account happening
  cases escape session.runner.vm o.vm with
  | none => exact haccounted
  | some left => exact (waiting_abandon left.2).trans haccounted

/-- **A session of plain steps is kept**, up to where a thread is gone. -/
theorem Recording.kept (h : Recording shown host (Plain host) session) :
    session.runner.vm.control = .crashed ∨ session.Kept := by
  induction h with
  | new overrides program nodeIds stepLimit =>
    have hagrees : Agrees .empty [] [] := ⟨OpenForest.entries_empty, rfl⟩
    exact .inr ((resting_new program nodeIds stepLimit).kept rfl rfl rfl ⟨trivial, id⟩ hagrees fun _ h => nomatch h)
  | another h hrest program nodeIds stepLimit ih =>
    have hkept := ih.resolve_left hrest.not_crashed
    right
    refine (resting_new program nodeIds stepLimit).kept rfl rfl rfl ⟨trivial, id⟩ (hkept.even.agrees_of_rest hrest) ?_
    intro runner hrunner
    rcases mem_cons.mp hrunner with rfl | hrunner
    · exact hkept.even.resting hrest
    · exact hkept.waiting runner hrunner
  | switch h hrest before after runner hwaiting ih =>
    have hkept := ih.resolve_left hrest.not_crashed
    have hresting := hkept.waiting runner (by rw [hwaiting]; exact mem_append_right _ (mem_cons_self ..))
    right
    refine hresting.kept rfl hresting.rest.natives rfl hresting.rest.idle (hkept.even.agrees_of_rest hrest) ?_
    intro other hother
    rcases mem_cons.mp hother with rfl | hother
    · exact hkept.even.resting hrest
    · apply hkept.waiting other
      rw [hwaiting]
      rcases mem_append.mp hother with hother | hother
      · exact mem_append_left _ hother
      · exact mem_append_right _ (mem_cons_of_mem _ hother)
  | call h hrest fnId args ih =>
    have hkept := ih.resolve_left hrest.not_crashed
    exact .inr ((hkept.even.resting hrest).kept rfl hrest.natives rfl ⟨trivial, id⟩ (hkept.even.agrees_of_rest hrest)
      hkept.waiting)
  | @step session input budget o h hstep hplain ih =>
    have hrunning : session.runner.vm.control ≠ .crashed := fun hcontrol =>
      nomatch (step_eq_none hcontrol).symm.trans hstep
    have hkept := ih.resolve_left hrunning
    rcases hkept.even.step hkept.placed hstep hplain with hcontrol | hbalanced
    · left
      exact hcontrol
    · right
      refine ⟨?_, ?_, ?_⟩
      · unfold Session.Even
        rw [after_eq rfl]
        exact ⟨hbalanced.bounded, hbalanced.length, hbalanced.marked, hbalanced.counted, hbalanced.agrees⟩
      · rw [after_eq rfl]
        exact (step_shows session.runner.nodeIds hkept.placed hstep).placed
      · rw [waiting_after]
        exact hkept.waiting

/-- **The trace is the run**, in every session of plain steps: whenever no machine is running, the trees that are
handed out list every call and effect that was started, in order, each as deep as it was made, with its own
result. -/
theorem trace_is_run (h : Recording shown host (Plain host) session) (hrest : session.runner.AtRest) :
    session.TraceIsRun := by
  have hkept := h.kept.resolve_left hrest.not_crashed
  have hagrees := hkept.even.agrees_of_rest hrest
  have hclosed : session.recorder.nodes.path = [] := by
    rw [← length_eq_zero_iff, ← OpenForest.length_positions, hagrees.positions]
    rfl
  refine ⟨fun rootTarget rootInput rootOutput rootError => ?_, hclosed⟩
  show listing 0 session.recorder.nodes.completed = session.made
  rw [← OpenForest.entries_of_closed _ hagrees.positions]
  exact hagrees.entries

end Balanced

/-! ## Runs -/

section Runs

instance (host : Host) (session : Session) (input : Input) (budget : Budget) (o : Outcome) :
    Decidable (Plain host session input budget o) :=
  decidable_of_iff (session.refuses host input budget = false ∧ session.escapesCall o = false ∧
      session.tailsEntry host input budget = false)
    ⟨fun ⟨hrefuses, hescapes, htails⟩ => ⟨hrefuses, hescapes, htails⟩,
      fun h => ⟨h.refuses, h.escapesCall, h.tailsEntry⟩⟩

variable {P : Session → Input → Budget → Outcome → Prop}
  [∀ session input budget o, Decidable (P session input budget o)] {shown : Shown} {host : Host}

variable (P shown host) in
/-- So many steps, as long as they satisfy `P`. -/
def Session.turns (input : Input) (budget : Budget) : Nat → Session → Option Session
  | 0, session => some session
  | n + 1, session =>
    match session.runner.vm.step session.runner.program host input budget with
    | some o =>
      if P session input budget o then (session.after shown host input budget o).turns input budget n else none
    | none => none

theorem Recording.turns {input : Input} {budget : Budget} {n : Nat} {session session' : Session}
    (h : Recording shown host P session) (hturns : session.turns P shown host input budget n = some session') :
    Recording shown host P session' := by
  induction n generalizing session with
  | zero => exact some.inj hturns ▸ h
  | succ n ih =>
    rw [Session.turns] at hturns
    split at hturns
    · rename_i o hstep
      split at hturns
      · rename_i hP
        exact ih (h.step hstep hP) hturns
      · exact nomatch hturns
    · exact nomatch hturns

end Runs

/-- `fn f() -> [io] Nil { io.print() }` and `fn main() -> [io] Nil { let x := f() x }`. -/
def printProgram : Program where
  constants := [.str "io", .str "print"]
  functions :=
    [ ⟨"f", 0, 0, [.effectCall 0 1 0, .return], [⟨"io", none⟩], 0, [], 0⟩
    , ⟨"main", 0, 0, [.call 0 0, .return], [⟨"io", none⟩], 0, [], 0⟩ ]
  functionNames _ := none
  recordShapes := []

def plainShown : Shown := ⟨fun _ => .null, fun _ => ""⟩

/-- `main` is called, with a new recorder. -/
def printSession : Session :=
  let nodeIds := fun fnId pc => toString fnId ++ "." ++ toString pc
  let session := Session.new (fun _ => none) (.new printProgram nodeIds 100)
  { session with runner := { session.runner with vm := session.runner.vm.goto (.invoke 1 []) } }

theorem recording_printSession (P : Session → Input → Budget → Outcome → Prop) :
    Recording plainShown plainHost P printSession :=
  .call (.new _ _ _ _) ⟨rfl, .inl rfl⟩ 1 []

/-- What can be seen of a session whose machine has come back. -/
def Session.seen (session : Session) : Bool × Nat × Nat :=
  (session.runner.vm.natives.isEmpty && (match session.runner.vm.control with
    | .finished _ => true
    | _ => false), session.made.length, session.recorder.nodes.completed.length)

theorem atRest_of_seen {session : Session} {made nodes : Nat} (h : session.seen = (true, made, nodes)) :
    session.runner.AtRest := by
  obtain ⟨hback, -⟩ := Prod.mk.inj h
  rw [Bool.and_eq_true, List.isEmpty_iff] at hback
  refine ⟨hback.1, .inr ?_⟩
  have hfinished := hback.2
  split at hfinished
  · rename_i result hcontrol
    exact ⟨result, hcontrol⟩
  · exact nomatch hfinished

/-- The effect fails inside of `f`: both its node and that of `f` are lost. -/
theorem failing_print_is_lost : ¬ ∀ (shown : Shown) (host : Host) (session : Session),
    Recording shown host (fun _ _ _ _ => True) session → session.runner.AtRest → session.TraceIsRun := by
  intro h
  have hseen : (printSession.turns (fun _ _ _ _ => True) plainShown plainHost
      { plainInput with dispatch := .error "denied" } (.start none) 4).map Session.seen = some (true, 2, 0) := by
    decide +kernel
  obtain ⟨session, hturns, hseen⟩ := map_eq_some_iff.mp hseen
  have hnodes := (h plainShown plainHost session ((recording_printSession _).turns hturns)
    (atRest_of_seen hseen)).nodes "main" .null none none
  obtain ⟨-, hcounts⟩ := Prod.mk.inj hseen
  obtain ⟨hmade, hcompleted⟩ := Prod.mk.inj hcounts
  change listing 0 session.recorder.nodes.completed = session.made at hnodes
  rw [eq_nil_of_length_eq_zero hcompleted, listing_nil] at hnodes
  rw [← hnodes] at hmade
  exact nomatch hmade

/-- Where it succeeds, they are both there. -/
theorem trace_is_run_print : ∃ session, Recording plainShown plainHost (Plain plainHost) session ∧
    session.runner.AtRest ∧ session.made.length = 2 ∧ session.TraceIsRun := by
  have hseen : (printSession.turns (Plain plainHost) plainShown plainHost plainInput (.start none) 6).map
      Session.seen = some (true, 2, 1) := by
    decide +kernel
  obtain ⟨session, hturns, hseen⟩ := map_eq_some_iff.mp hseen
  have hrecording := (recording_printSession (Plain plainHost)).turns hturns
  have hmade : session.made.length = 2 := (Prod.mk.inj (Prod.mk.inj hseen).2).1
  exact ⟨session, hrecording, atRest_of_seen hseen, hmade, trace_is_run hrecording (atRest_of_seen hseen)⟩

end LexLang.Trace
