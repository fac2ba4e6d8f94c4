/-
# LexLang.Machine.Walk — what the natives do with a machine

Between two calls of its own a native pops values, pushes one, waits for a call, goes on, or fails. `Walk` says
of a property of machines that these lead to it; then all that the natives, the parsers, the actors and the
effects do leads to it (`Walk.mapNext`, `Walk.parse`, `Walk.afterCall`).

The natives of lists are part of the loop that runs the instruction, and go on in it. The parsers and the turns of
actors are parts of an effect.
-/
import LexLang.Machine.Step

namespace LexLang.Machine

open Option

/-- A part of a native: neither a loop nor an effect. -/
def Native.isPart : Native → Bool
  | .runTo _ | .effectCall => false
  | _ => true

/-- What sits right on the loop that runs its instruction: the other parts are those of an effect. -/
def Native.onLoop : Native → Bool
  | .listMap .. | .listFilter .. | .listFold .. | .sortByKey .. | .effectCall => true
  | _ => false

/-- What an effect does that runs inside of the machine. -/
def Control.Effectful : Control → Prop
  | .parse .. | .parsed _ | .replied _ | .awaitTurn .. => True
  | _ => False

/-- **A walk**: from inside of an effect, and in a loop, every way to go on leads to `Goal`. -/
structure Walk (InEffect Looping Goal : Vm → Prop) : Prop where
  withStack {u : Vm} (stack : List Value) : Looping u → Looping (u.withStack stack)
  withSteps {u : Vm} (steps : Nat) : Looping u → Looping { u with steps }
  join {u : Vm} (items : Nat) : Looping u → Goal (u.goto (.join items))
  resume {u : Vm} (v : Value) : Looping u → Goal (u.resume v)
  raise {u : Vm} (e : VmError) : Looping u → Goal (u.raise e)
  awaitOnLoop {u : Vm} {native : Native} (hpart : native.isPart = true) (hloop : native.onLoop = true)
    (f : Value) (args : List Value) : Looping u → Goal (u.await native (.invokeClosure f args))
  crash {u : Vm} : InEffect u ∨ Looping u → Goal (u.goto .crashed)
  goto {u : Vm} {control : Control} (hcontrol : control.Effectful) : InEffect u → Goal (u.goto control)
  await {u : Vm} {native : Native} {control : Control} (hpart : native.isPart = true)
    (hloop : native.onLoop = false) (hcontrol : control.Effectful) :
    InEffect u → Goal (u.await native control)
  awaitCall {u : Vm} {native : Native} (hpart : native.isPart = true) (hloop : native.onLoop = false)
    (f : Value) (args : List Value) : InEffect u → Goal (u.await native (.invokeClosure f args))

namespace Walk

variable {InEffect Looping Goal : Vm → Prop} {program : Program} {host : Host} {input : Input} {budget : Budget}
  {u : Vm} {o : Outcome}

section

variable (w : Walk InEffect Looping Goal)

include w

/-! ## Lists -/

theorem mapNext (h : Looping u) (f : Value) (rest out : List Value) : Goal (u.mapNext f rest out) := by
  unfold Vm.mapNext
  split
  · exact w.resume _ h
  · exact w.awaitOnLoop rfl rfl _ _ h

theorem filterNext (h : Looping u) (f : Value) (rest out : List Value) : Goal (u.filterNext f rest out) := by
  unfold Vm.filterNext
  split
  · exact w.resume _ h
  · exact w.awaitOnLoop rfl rfl _ _ h

theorem foldNext (h : Looping u) (f acc : Value) (rest : List Value) : Goal (u.foldNext f acc rest) := by
  unfold Vm.foldNext
  split
  · exact w.resume _ h
  · exact w.awaitOnLoop rfl rfl _ _ h

theorem sortNext (h : Looping u) (f : Value) (rest : List Value) (keyed : List (Value × Value)) :
    Goal (u.sortNext f rest keyed) := by
  unfold Vm.sortNext
  split
  · exact w.resume _ h
  · exact w.awaitOnLoop rfl rfl _ _ h

theorem withList (h : Looping u) {text : String} {k : Vm → Value → List Value → Outcome}
    (hk : ∀ u f items, Looping u → Goal (k u f items).vm) : Goal (u.withList budget text k).vm := by
  unfold Vm.withList
  split
  · dsimp only
    split
    · exact hk _ _ _ (w.withStack _ h)
    · exact w.raise _ (w.withStack _ h)
    · exact w.raise _ (w.withStack _ h)
  · exact w.raise _ (w.withStack _ h)

theorem listFold (h : Looping u) : Goal u.listFold := by
  unfold Vm.listFold
  split
  · dsimp only
    split
    · exact w.foldNext (w.withStack _ h) _ _ _
    · exact w.raise _ (w.withStack _ h)
    · exact w.raise _ (w.withStack _ h)
  · exact w.raise _ (w.withStack _ h)

theorem parallelMap (h : Looping u) : Goal (u.parallelMap input budget).vm :=
  w.withList h fun u f items hu => by
    split
    · exact w.resume _ hu
    · exact w.join _ hu

theorem collect (h : Looping u) (answers : List Answer) (out : List Value) : Goal (u.collect answers out) := by
  induction answers generalizing out with
  | nil => exact w.resume _ h
  | cons answer answers ih =>
    match answer with
    | some (.ok v) => exact ih _
    | some (.error e) => exact w.raise _ h
    | none => exact w.raise _ h

/-! ## Effects -/

variable (h : InEffect u)
include h

theorem runParserOp (args : List Value) : Goal (u.runParserOp args) := by
  unfold Vm.runParserOp
  split
  · exact w.goto trivial h
  · split
    · exact w.await rfl rfl trivial h
    · exact w.goto trivial h

theorem send (op : ConcOp) (args : List Value) : Goal (u.send host input budget op args).vm := by
  unfold Vm.send
  split
  · split
    · exact w.goto trivial h
    · exact w.goto trivial h
    · exact w.goto trivial h
  · exact w.goto trivial h

theorem runConcOp {op : String} {args : List Value}
    (ho : u.runConcOp host input budget op args = some o) : Goal o.vm := by
  unfold Vm.runConcOp at ho
  split at ho
  · exact some.inj ho ▸ w.send h _ _
  · exact some.inj ho ▸ w.send h _ _
  · exact some.inj ho ▸ w.send h _ _
  · obtain ⟨r, -, rfl⟩ := map_eq_some_iff.mp ho
    exact w.goto trivial h

theorem turnDone (op : ConcOp) (reply : Except String Value) : Goal (u.turnDone op reply) := by
  unfold Vm.turnDone
  split
  · exact w.goto trivial h
  · exact w.goto trivial h
  · exact w.goto trivial h

theorem afterHandler (op : ConcOp) (result : Except VmError Value) :
    Goal (u.afterHandler program host op result) := by
  unfold Vm.afterHandler
  split
  · exact w.turnDone h _ _
  · split
    · exact w.crash (.inl h)
    · exact w.turnDone h _ _
    · exact w.turnDone h _ _

omit h in
theorem afterEffect (h : Looping u) (result : Except String Value) : Goal (u.afterEffect input result) := by
  unfold Vm.afterEffect
  split
  · exact w.raise _ h
  · split
    · exact w.raise _ h
    · exact w.resume _ h

/-! ## Parsers -/

theorem parsePart {kind field : String} {fields : List (String × Value)} {bytes : List UInt8}
    {pos : Nat} {native : Native} (hpart : native.isPart = true) (hloop : native.onLoop = false) :
    Goal (u.parsePart kind field fields bytes pos native) := by
  unfold Vm.parsePart
  split
  · exact w.await hpart hloop trivial h
  · exact w.goto trivial h

theorem withPart {kind first second : String} {fields : List (String × Value)} {pos : Nat}
    {k : Value → Vm} (hk : ∀ v, Goal (k v)) : Goal (u.withPart kind first second fields pos k) := by
  unfold Vm.withPart
  split
  · exact w.goto trivial h
  · exact w.goto trivial h
  · exact hk _

theorem parse (bytes : List UInt8) (node : Value) (pos : Nat) : Goal (u.parse host bytes node pos) := by
  have hgoto : ∀ result, Goal (u.goto (.parsed result)) := fun _ => w.goto trivial h
  unfold Vm.parse
  split
  · split
    · split
      · split
        · exact hgoto _
        · exact hgoto _
      · split
        · exact hgoto _
        · exact hgoto _
      · exact hgoto _
      · exact hgoto _
      · exact hgoto _
      · exact hgoto _
      · exact w.withPart h fun _ => w.parsePart h rfl rfl
      · exact w.withPart h fun _ => w.parsePart h rfl rfl
      · split
        · exact w.await rfl rfl trivial h
        · exact hgoto _
      · exact w.parsePart h rfl rfl
      · exact w.withPart h fun _ => w.parsePart h rfl rfl
      · exact w.withPart h fun _ => w.parsePart h rfl rfl
      · exact hgoto _
    · exact hgoto _
  · exact hgoto _

theorem afterParse (native : Native) (result : Except (Nat × String) (Value × Nat)) :
    Goal (u.afterParse host native result) := by
  unfold Vm.afterParse
  split
  case _ => exact w.goto trivial h
  case _ => exact w.await rfl rfl trivial h
  case _ => exact w.goto trivial h
  case _ => exact w.goto trivial h
  case _ => exact w.goto trivial h
  case _ =>
    split
    · exact w.await rfl rfl trivial h
    · exact w.goto trivial h
  all_goals first
    | exact w.goto trivial h
    | exact w.awaitCall rfl rfl _ _ h
    | exact w.crash (.inl h)

omit h

/-! ## What waits for a call -/

/-- A native of a list goes on in its loop, every other one in its effect. -/
theorem afterCall {native : Native} (hloop : native.onLoop = true → Looping u)
    (heffect : native.onLoop = false → InEffect u) (result : Except VmError Value) :
    Goal (u.afterCall program host native result) := by
  unfold Vm.afterCall
  split
  · exact w.mapNext (hloop rfl) _ _ _
  · exact w.filterNext (hloop rfl) _ _ _
  · exact w.foldNext (hloop rfl) _ _ _
  · exact w.sortNext (hloop rfl) _ _ _
  · exact w.raise _ (hloop rfl)
  · exact w.raise _ (hloop rfl)
  · exact w.raise _ (hloop rfl)
  · exact w.raise _ (hloop rfl)
  · exact w.goto trivial (heffect rfl)
  · exact w.goto trivial (heffect rfl)
  · exact w.goto trivial (heffect rfl)
  · exact w.goto trivial (heffect rfl)
  · exact w.afterHandler (heffect rfl) _ _
  · apply w.crash
    cases hnative : native.onLoop with
    | true => exact .inr (hloop hnative)
    | false => exact .inl (heffect hnative)

end

end Walk

end LexLang.Machine
