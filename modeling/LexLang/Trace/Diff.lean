/-
# LexLang.Trace.Diff — overrides, and where two traces part

`replay_with_overrides` (`lex-trace/src/replay.rs`) and `diff_runs` (`diff.rs`). Two nodes are the same when
their ids, inputs, outputs and errors are; JSON values are compared as maps are, in whatever order their keys
are listed.
-/
import LexLang.Trace.Recorder

namespace LexLang.Trace

/-! ## Overrides -/

structure Override where
  nodeId : String
  output : Json.Value

/-- A later override of a node takes the place of an earlier one. -/
def replay_with_overrides (overrides : List Override) : String → Option Json.Value :=
  overrides.foldl (fun m o => Function.update m o.nodeId (some o.output)) fun _ => none

/-- The outputs of the effects in a trace. -/
def TraceTree.effectOutputs (tree : TraceTree) : List Override :=
  (listing 0 tree.nodes).filterMap fun (_, node) =>
    match node.kind, node.output with
    | .effect, some output => some ⟨node.nodeId, output⟩
    | _, _ => none

/-! ## Differences -/

inductive Side
  | output (value : Json.Value)
  | error (message : String)
  | missing

structure Divergence where
  nodeId : String
  a : Side
  b : Side

def side_of (node : TraceNode) : Side :=
  match node.error, node.output with
  | some e, _ => .error e
  | none, some o => .output o
  | none, none => .missing

def sameOutput : Option Json.Value → Option Json.Value → Bool
  | some v, some w => v.same w
  | none, none => true
  | _, _ => false

def walk_pair : List (Tree TraceNode) → List (Tree TraceNode) → Option Divergence
  | [], [] => none
  | .node na _ :: _, [] => some ⟨na.nodeId, side_of na, .missing⟩
  | [], .node nb _ :: _ => some ⟨nb.nodeId, .missing, side_of nb⟩
  | .node na children :: as, .node nb children' :: bs =>
    if na.nodeId ≠ nb.nodeId then some ⟨na.nodeId, side_of na, side_of nb⟩
    else if !na.input.same nb.input || !sameOutput na.output nb.output || na.error ≠ nb.error then
      some ⟨na.nodeId, side_of na, side_of nb⟩
    else
      match walk_pair children children' with
      | some d => some d
      | none => walk_pair as bs

def diff_runs (a b : TraceTree) : Option Divergence := walk_pair a.nodes b.nodes

/-- A trace does not part from itself. -/
theorem walk_pair_self : ∀ nodes : List (Tree TraceNode), walk_pair nodes nodes = none
  | [] => by rw [walk_pair]
  | .node node children :: nodes => by
    have hsame : ∀ v : Json.Value, v.same v = true := fun v => Json.Value.Identical.same rfl
    have houtput : sameOutput node.output node.output = true := by
      cases node.output with
      | none => rfl
      | some v => exact hsame v
    rw [walk_pair, if_neg (by simp), if_neg (by simp [hsame, houtput]), walk_pair_self children]
    exact walk_pair_self nodes

end LexLang.Trace
