/-
# LexLang.Compiler.HigherOrder — the operations that are emitted in place

`try_emit_higher_order` (`lex-bytecode/src/compiler/mod.rs`) has no effect call for operations that take a
closure: it compiles their arguments one after the other and emits fixed code after each. That code keeps
its values in temporaries of its own, which it also enters in the map of names. Here an operation is a
list of groups of steps, one group for each argument that is compiled.
-/
import LexLang.Compiler.Emit

namespace LexLang.Compiler

/-- A step emits one instruction. Temporaries are numbered in the order they are bound. -/
inductive Step
  | op (op : Op)
  -- a new temporary takes the top of the stack
  | bind (name : String)
  | load (k : Nat)
  | store (k : Nat)
  -- the closure of a function with fixed code, which joins the table of functions
  | trampoline (name : String) (captureCount : Nat)

/-- What is emitted after each argument. -/
abbrev Template := List (List Step)

section Templates

open Step (op load store)

/-! ## Branches and loops -/

/-- On `false`, go on after `body`. -/
def skipUnless (body : List Step) : List Step := op (.jumpIfNot body.length) :: body

/-- On `false`, go on with `orElse`. -/
def branch (body orElse : List Step) : List Step :=
  skipUnless (body ++ [op (.jump orElse.length)]) ++ orElse

/-- From the end of `body` back to the start of `cond`. -/
def whileTrue (cond body : List Step) : List Step :=
  cond ++ skipUnless (body ++ [op (.jump (-(cond.length + body.length + 2)))])

/-- `i < len(list)`, for two temporaries. -/
def indexInRange (i list : Nat) : List Step :=
  [load i, load list, op .getListLen, op .numLt]

/-- `i := i + 1`. -/
def increment (i : Nat) : List Step :=
  [load i, op (.pushConst (.int 1)), op .numAdd, store i]

/-- Bind the list of an eager iterator, then its cursor. -/
def bindListAndCursor (it : Nat) (list cursor : String) : List Step :=
  [load it, op (.getVariantArg 0), Step.bind list, load it, op (.getVariantArg 1), Step.bind cursor]

/-- A new eager iterator over the list in a temporary. -/
def iterOf (out : Nat) : List Step :=
  [load out, op (.pushConst (.int 0)), op (.makeVariant "__IterEager" 2)]

/-! ## Lists -/

def emitListMap : Template := [[], [op .listMap]]

def emitListParMap : Template := [[], [op .parallelMap]]

def emitListSortBy : Template := [[], [op .sortByKey]]

def emitListFilter : Template := [[], [op .listFilter]]

def emitListFold : Template := [[], [], [op .listFold]]

/-! ## Iterators -/

def emitIterFromList : Template :=
  [[op (.pushConst (.int 0)), op (.makeVariant "__IterEager" 2)]]

def emitIterUnfold : Template := [[], [op (.makeVariant "__IterLazy" 2)]]

/-- `it` is temporary 0, then `seed`, `step`, `opt`, `pair`, `handle`, `cur_opt`, `list` and `idx`. -/
def emitIterNext : Template :=
  let eager : List Step :=
    bindListAndCursor 0 "__in_list" "__in_idx" ++ indexInRange 8 7 ++
    branch
      [load 7, load 8, op .getListElemDyn, load 7, load 8, op (.pushConst (.int 1)), op .numAdd,
        op (.makeVariant "__IterEager" 2), op (.makeTuple 2), op (.makeVariant "Some" 1)]
      [op (.makeVariant "None" 0)]
  let cursorNone : List Step := [op (.makeVariant "None" 0), op (.jump eager.length)]
  let cursorSome : List Step :=
    [load 6, op (.getVariantArg 0), load 5, op (.makeVariant "__IterCursor" 1), op (.makeTuple 2),
      op (.makeVariant "Some" 1), op (.jump (cursorNone.length + eager.length))]
  let cursor : List Step :=
    [load 0, op (.getVariantArg 0), Step.bind "__in_handle", load 5,
      op (.effectCall "sql" "cursor_next" 1), Step.bind "__in_cur_opt", load 6, op (.testVariant "Some")] ++
    skipUnless cursorSome ++ cursorNone
  let rest : List Step :=
    [load 0, op .dup, op (.testVariant "__IterCursor")] ++ skipUnless cursor ++ eager
  let lazyNone : List Step := [op (.makeVariant "None" 0), op (.jump rest.length)]
  let lazySome : List Step :=
    [load 3, op (.getVariantArg 0), Step.bind "__in_pair", load 4, op (.getElem 0), load 4,
      op (.getElem 1), load 2, op (.makeVariant "__IterLazy" 2), op (.makeTuple 2),
      op (.makeVariant "Some" 1), op (.jump (lazyNone.length + rest.length))]
  let lazy : List Step :=
    [load 0, op (.getVariantArg 0), Step.bind "__in_seed", load 0, op (.getVariantArg 1),
      Step.bind "__in_step", load 2, load 1, op (.callClosure 1), Step.bind "__in_opt", load 3,
      op (.testVariant "Some")] ++
    skipUnless lazySome ++ lazyNone
  [[Step.bind "__in_it", load 0, op .dup, op (.testVariant "__IterLazy")] ++ skipUnless lazy ++ rest]

def emitIterIsEmpty : Template :=
  [[Step.bind "__ie_it", load 0, op (.getVariantArg 1), load 0, op (.getVariantArg 0), op .getListLen,
    op .numLt, op .boolNot]]

def emitIterCount : Template :=
  [[Step.bind "__ic_it", load 0, op (.getVariantArg 0), op .getListLen, load 0, op (.getVariantArg 1),
    op .numSub]]

/-- `it`, `n`, `list`, `i`, `out`, `cnt`. The loop has two ways out. -/
def emitIterTake : Template :=
  let body : List Step :=
    [load 4, load 2, load 3, op .getListElemDyn, op .listAppend, store 4] ++ increment 3 ++
    increment 5
  let inner : List Step :=
    indexInRange 3 2 ++ skipUnless (body ++ [op (.jump (-(4 + 5 + body.length + 1)))])
  [[Step.bind "__itk_it"],
    [Step.bind "__itk_n"] ++ bindListAndCursor 0 "__itk_list" "__itk_i" ++
    [op (.makeList 0), Step.bind "__itk_out", op (.pushConst (.int 0)), Step.bind "__itk_cnt"] ++
    [load 5, load 1, op .numLt] ++ skipUnless inner ++ iterOf 4]

/-- `it`, `n`, `list`, `idx`, `raw`, `ni`. -/
def emitIterSkip : Template :=
  [[Step.bind "__isk_it"],
    [Step.bind "__isk_n"] ++ bindListAndCursor 0 "__isk_list" "__isk_idx" ++
    [load 3, load 1, op .numAdd, Step.bind "__isk_raw", load 4, load 2, op .getListLen, op .numLt,
      op (.jumpIf 3), load 2, op .getListLen, op (.jump 1), load 4, Step.bind "__isk_ni", load 2,
      load 5, op (.makeVariant "__IterEager" 2)]]

/-- `it`, `out`, then `seed`, `step`, `opt` and `pair` of a lazy iterator or `list` and `i` of an eager
one. -/
def emitIterToList : Template :=
  let eager : List Step :=
    bindListAndCursor 0 "__itl_list" "__itl_i" ++
    whileTrue (indexInRange 7 6)
      ([load 1, load 6, load 7, op .getListElemDyn, op .listAppend, store 1] ++ increment 7)
  let lazy : List Step :=
    bindListAndCursor 0 "__itl_seed" "__itl_step" ++
    whileTrue
      [load 3, load 2, op (.callClosure 1), Step.bind "__itl_opt", load 4, op (.testVariant "Some")]
      [load 4, op (.getVariantArg 0), Step.bind "__itl_pair", load 1, load 5, op (.getElem 0),
        op .listAppend, store 1, load 5, op (.getElem 1), store 2]
  [[Step.bind "__itl_it", op (.makeList 0), Step.bind "__itl_out", load 0, op (.testVariant "__IterLazy")] ++
    branch lazy eager ++ [load 1]]

/-- `it`, `f`, `list`, `i`, `out`. -/
def emitIterMap : Template :=
  [[Step.bind "__im_it"],
    [Step.bind "__im_f"] ++ bindListAndCursor 0 "__im_list" "__im_i" ++
    [op (.makeList 0), Step.bind "__im_out"] ++
    whileTrue (indexInRange 3 2)
      ([load 4, load 1, load 2, load 3, op .getListElemDyn, op (.callClosure 1), op .listAppend,
        store 4] ++ increment 3) ++
    iterOf 4]

/-- `it`, `f`, `list`, `i`, `out`, `x`. -/
def emitIterFilter : Template :=
  [[Step.bind "__if_it"],
    [Step.bind "__if_f"] ++ bindListAndCursor 0 "__if_list" "__if_i" ++
    [op (.makeList 0), Step.bind "__if_out"] ++
    whileTrue (indexInRange 3 2)
      ([load 2, load 3, op .getListElemDyn, Step.bind "__if_x", load 1, load 5, op (.callClosure 1)] ++
        skipUnless [load 4, load 5, op .listAppend, store 4] ++ increment 3) ++
    iterOf 4]

/-- `it`, `acc`, `f`, `list`, `i`. -/
def emitIterFold : Template :=
  [[Step.bind "__ifo_it"], [Step.bind "__ifo_acc"],
    [Step.bind "__ifo_f"] ++ bindListAndCursor 0 "__ifo_list" "__ifo_i" ++
    whileTrue (indexInRange 4 3)
      ([load 2, load 1, load 3, load 4, op .getListElemDyn, op (.callClosure 2), store 1] ++
        increment 4) ++
    [load 1]]

/-! ## Maps -/

/-- `xs`, `acc`, `f`, `i`, `pair`. -/
def emitMapFold : Template :=
  [[op (.effectCall "map" "entries" 1), Step.bind "__mf_xs"], [Step.bind "__mf_acc"],
    [Step.bind "__mf_f", op (.pushConst (.int 0)), Step.bind "__mf_i"] ++
    whileTrue (indexInRange 3 0)
      ([load 0, load 3, op .getListElemDyn, Step.bind "__mf_pair", load 2, load 1, load 4,
        op (.getElem 0), load 4, op (.getElem 1), op (.callClosure 3), store 1] ++ increment 3) ++
    [load 1]]

/-! ## Options and results -/

/-- The value, the closure and the payload. -/
def emitVariantMap (wrapWith : String) (wrapResult : Bool) : Template :=
  [[Step.bind "__hov"],
    [Step.bind "__hof", load 0, op .dup, op (.testVariant wrapWith)] ++
    branch
      ([op (.getVariantArg 0), Step.bind "__hov_arg", load 1, load 2, op (.callClosure 1)] ++
        if wrapResult then [op (.makeVariant wrapWith 1)] else [])
      []]

def emitVariantOrElse (matchOn : String) (closureArity : Nat) : Template :=
  [[Step.bind "__hoe"],
    [Step.bind "__hoe_f", load 0, op .dup, op (.testVariant matchOn)] ++
    branch
      ([op .pop, load 1] ++ (if closureArity = 1 then [load 0, op (.getVariantArg 0)] else []) ++
        [op (.callClosure closureArity)])
      []]

def emitOptionUnwrapOrElse : Template :=
  [[Step.bind "__uoe_val"],
    [Step.bind "__uoe_f", load 0, op .dup, op (.testVariant "Some")] ++
    branch [op (.getVariantArg 0)] [op .pop, load 1, op (.callClosure 0)]]

def emitResultUnwrapOrElse : Template :=
  [[Step.bind "__ruoe_val"],
    [Step.bind "__ruoe_f", load 0, op .dup, op (.testVariant "Ok")] ++
    branch [op (.getVariantArg 0)]
      [op .pop, load 1, load 0, op (.getVariantArg 0), op (.callClosure 1)]]

/-! ## Flows -/

def emitFlowSequential : Template := [[], [.trampoline "__flow_sequential" 2]]

def emitFlowBranch : Template := [[], [], [.trampoline "__flow_branch" 3]]

def emitFlowRetry : Template := [[], [.trampoline "__flow_retry" 2]]

def emitFlowRetryWithBackoff : Template := [[], [], [.trampoline "__flow_retry_backoff" 3]]

def emitFlowParallel : Template := [[], [.trampoline "__flow_parallel" 2]]

/-- `xs`, `out`, `i`. -/
def emitFlowParallelList : Template :=
  [[Step.bind "__fpl_xs", op (.makeList 0), Step.bind "__fpl_out", op (.pushConst (.int 0)), Step.bind "__fpl_i"] ++
    whileTrue (indexInRange 2 0)
      ([load 1, load 0, load 2, op .getListElemDyn, op (.callClosure 0), op .listAppend, store 1] ++
        increment 2) ++
    [load 1]]

end Templates

/-! ## The table -/

/-- What is emitted for an operation of a module, if it is one that takes closures. -/
def higherOrder : String × String → Option Template
  | ("result", "map") => some (emitVariantMap "Ok" true)
  | ("result", "and_then") => some (emitVariantMap "Ok" false)
  | ("result", "map_err") => some (emitVariantMap "Err" true)
  | ("result", "or_else") => some (emitVariantOrElse "Err" 1)
  | ("option", "map") => some (emitVariantMap "Some" true)
  | ("option", "and_then") => some (emitVariantMap "Some" false)
  | ("option", "or_else") => some (emitVariantOrElse "None" 0)
  | ("option", "unwrap_or_else") => some emitOptionUnwrapOrElse
  | ("result", "unwrap_or_else") => some emitResultUnwrapOrElse
  | ("list", "map") => some emitListMap
  | ("list", "par_map") => some emitListParMap
  | ("list", "sort_by") => some emitListSortBy
  | ("list", "filter") => some emitListFilter
  | ("list", "fold") => some emitListFold
  | ("iter", "from_list") => some emitIterFromList
  | ("iter", "unfold") => some emitIterUnfold
  | ("iter", "next") => some emitIterNext
  | ("iter", "is_empty") => some emitIterIsEmpty
  | ("iter", "count") => some emitIterCount
  | ("iter", "take") => some emitIterTake
  | ("iter", "skip") => some emitIterSkip
  | ("iter", "to_list") => some emitIterToList
  | ("iter", "collect") => some emitIterToList
  | ("iter", "map") => some emitIterMap
  | ("iter", "filter") => some emitIterFilter
  | ("iter", "fold") => some emitIterFold
  | ("map", "fold") => some emitMapFold
  | ("flow", "sequential") => some emitFlowSequential
  | ("flow", "branch") => some emitFlowBranch
  | ("flow", "retry") => some emitFlowRetry
  | ("flow", "retry_with_backoff") => some emitFlowRetryWithBackoff
  | ("flow", "parallel") => some emitFlowParallel
  | ("flow", "parallel_list") => some emitFlowParallelList
  | _ => none

/-! ## Emission -/

/-- The slots of the temporaries so far. -/
structure Inlining where
  fc : FnCompiler
  slots : List Nat

def Inlining.step (s : Inlining) : Step → Inlining
  | .op op => { s with fc := s.fc.emit op }
  | .bind name => { fc := s.fc.bind name .temporary, slots := s.slots ++ [s.fc.nextLocal] }
  | .load k => { s with fc := s.fc.emit (.loadLocal (s.slots.getD k 0)) }
  | .store k => { s with fc := s.fc.emit (.storeLocal (s.slots.getD k 0)) }
  | .trampoline name captureCount =>
    { s with
      fc := { s.fc.emit (.makeTrampoline name captureCount) with functions := s.fc.functions + 1 } }

def Inlining.steps (s : Inlining) (steps : List Step) : Inlining := steps.foldl Inlining.step s

end LexLang.Compiler
