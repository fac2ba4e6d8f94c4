/-
# LexLang.Compiler.Names — the names an expression looks up, and the ones it leaves behind

Read off the source expression alone: the names that its code looks up in the map of locals (`reads`), the
names that stay in the map when its code is done (`leaks`: whatever a `let` binds outside of lambdas and
match arms, and the compiler's own temporaries), and when none of this is in the way (`Undisturbed`).
-/
import LexLang.Compiler.Expression
import Mathlib.Data.Set.Insert

namespace LexLang.Compiler

open LexLang.Ast

/-! ## Slots taken by patterns and templates -/

mutual

/-- The names that the test of a pattern hands out slots for, in order; `true` for its variables. -/
def slotNames : Pattern → List (String × Bool)
  | .pWild => []
  | .pVar name => [(name, true)]
  | .pLiteral _ => []
  | .pConstructor _ [] => []
  | .pConstructor _ [arg] => slotNames arg
  | .pConstructor _ args => ("__variant", false) :: slotNamesAll args
  | .pRecord fields => ("__record", false) :: slotNamesFields fields
  | .pTuple items => ("__tuple", false) :: slotNamesAll items

def slotNamesAll : List Pattern → List (String × Bool)
  | [] => []
  | p :: ps => slotNames p ++ slotNamesAll ps

def slotNamesFields : List (String × Pattern) → List (String × Bool)
  | [] => []
  | (_, p) :: fields => slotNames p ++ slotNamesFields fields

end

/-- The last slot handed out under a name was not for a variable of the pattern. -/
def Hides (p : Pattern) (name : String) : Prop := (slotNames p).reverse.lookup name = some false

def Step.name? : Step → Option String
  | .bind name => some name
  | _ => none

/-- The temporaries of a group of steps. -/
def stepNames (steps : List Step) : List String := steps.filterMap Step.name?

/-- The temporaries of a comparison that swaps its operands. -/
def swapNames (op : String) : List String :=
  if op = ">" ∨ op = ">=" then ["__swap_a", "__swap_b"] else []

/-! ## What is left behind -/

variable (G : Globals)

mutual

/-- **The names that an expression leaves in the map of locals.** -/
def leaks : CExpr → List String
  | .literal _ => []
  | .var _ => []
  | .letE name _ value body => leaks value ++ name :: leaks body
  | .block statements result => leaksAll statements ++ leaks result
  | .call callee args =>
    match G.callForm callee with
    | .module _ module op =>
      match higherOrder (module, op) with
      | some template => leaksInline template args
      | none => leaksAll args
    | .function _ _ => leaksAll args
    | .todo _ => []
    | .named _ => leaksAll args
    | .value => leaks callee ++ leaksAll args
  | .constructor _ args => leaksAll args
  | .matchE scrutinee _ => leaks scrutinee ++ ["__scrut"]
  | .recordLit fields => leaksFields fields
  | .tupleLit items => leaksAll items
  | .listLit items => leaksAll items
  | .fieldAccess value _ => leaks value
  | .binOp op lhs rhs => leaks lhs ++ leaks rhs ++ swapNames op
  | .unaryOp _ expr => leaks expr
  | .lambda _ _ _ _ _ => []
  | .returnE value => leaks value

def leaksAll : List CExpr → List String
  | [] => []
  | e :: es => leaks e ++ leaksAll es

def leaksFields : List (String × CExpr) → List String
  | [] => []
  | (_, e) :: fields => leaks e ++ leaksFields fields

def leaksInline : Template → List CExpr → List String
  | [], _ => []
  | _ :: _, [] => []
  | steps :: template, e :: es => leaks e ++ stepNames steps ++ leaksInline template es

end

/-! ## What is looked up -/

mutual

/-- **The names that an expression looks up in the map of locals** it starts from, in lambdas inside it
as well. -/
def reads : CExpr → List String
  | .literal _ => []
  | .var name => [name]
  | .letE name _ value body => reads value ++ (reads body).filter (· ≠ name)
  | .block statements result => readsAll statements ++ reads result
  | .call callee args =>
    match G.callForm callee with
    | .module _ module op =>
      match higherOrder (module, op) with
      | some template => readsInline template args
      | none => readsAll args
    | .function _ _ => readsAll args
    | .todo _ => []
    | .named name => name :: readsAll args
    | .value => reads callee ++ readsAll args
  | .constructor _ args => readsAll args
  | .matchE scrutinee arms => reads scrutinee ++ readsArms arms
  | .recordLit fields => readsFields fields
  | .tupleLit items => readsAll items
  | .listLit items => readsAll items
  | .fieldAccess value _ => reads value
  | .binOp _ lhs rhs => reads lhs ++ reads rhs
  | .unaryOp _ expr => reads expr
  | .lambda params _ _ _ body => (reads body).filter (· ∉ params.map Prod.fst)
  | .returnE value => reads value

def readsAll : List CExpr → List String
  | [] => []
  | e :: es => reads e ++ readsAll es

def readsFields : List (String × CExpr) → List String
  | [] => []
  | (_, e) :: fields => reads e ++ readsFields fields

def readsArms : List (Pattern × CExpr) → List String
  | [] => []
  | (p, body) :: arms => (reads body).filter (· ∉ patternBinders p) ++ readsArms arms

def readsInline : Template → List CExpr → List String
  | [], _ => []
  | _ :: _, [] => []
  | _ :: template, e :: es => reads e ++ readsInline template es

end

/-! ## Where nothing is in the way -/

/-- None of the names left behind is looked up. -/
def Apart (left looked : List String) : Prop := ∀ x ∈ looked, x ∉ left

mutual

/-- **Nothing is in the way**, in an expression inside the binders `names`: no expression looks up a name
that one compiled before it, in the same function, has left behind; no temporary of a pattern hides a name
that its arm looks up; and no local is called under the name of a function or of `todo`, or stands before
the dot of a call under the name of an imported module. -/
def Undisturbed : Set String → CExpr → Prop
  | _, .literal _ => True
  | _, .var _ => True
  | names, .letE name _ value body =>
    Undisturbed names value ∧ Apart (leaks G value) ((reads G body).filter (· ≠ name)) ∧
      Undisturbed (insert name names) body
  | names, .block statements result =>
    UndisturbedAll names statements ∧ Apart (leaksAll G statements) (reads G result) ∧
      Undisturbed names result
  | names, .call callee args =>
    match G.callForm callee with
    | .module name module op =>
      name ∉ names ∧
        match higherOrder (module, op) with
        | some template => UndisturbedInline names template args
        | none => UndisturbedAll names args
    | .function name _ => name ∉ names ∧ UndisturbedAll names args
    | .todo name => name ∉ names
    | .named _ => UndisturbedAll names args
    | .value =>
      Undisturbed names callee ∧ Apart (leaks G callee) (readsAll G args) ∧ UndisturbedAll names args
  | names, .constructor _ args => UndisturbedAll names args
  | names, .matchE scrutinee arms =>
    Undisturbed names scrutinee ∧ Apart (leaks G scrutinee ++ ["__scrut"]) (readsArms G arms) ∧
      UndisturbedArms names arms
  | names, .recordLit fields => UndisturbedFields names fields
  | names, .tupleLit items => UndisturbedAll names items
  | names, .listLit items => UndisturbedAll names items
  | names, .fieldAccess value _ => Undisturbed names value
  | names, .binOp _ lhs rhs =>
    Undisturbed names lhs ∧ Apart (leaks G lhs) (reads G rhs) ∧ Undisturbed names rhs
  | names, .unaryOp _ expr => Undisturbed names expr
  | names, .lambda params _ _ _ body => Undisturbed ({x | x ∈ params.map Prod.fst} ∪ names) body
  | names, .returnE value => Undisturbed names value

def UndisturbedAll : Set String → List CExpr → Prop
  | _, [] => True
  | names, e :: es =>
    Undisturbed names e ∧ Apart (leaks G e) (readsAll G es) ∧ UndisturbedAll names es

def UndisturbedFields : Set String → List (String × CExpr) → Prop
  | _, [] => True
  | names, (_, e) :: fields =>
    Undisturbed names e ∧ Apart (leaks G e) (readsFields G fields) ∧ UndisturbedFields names fields

def UndisturbedArms : Set String → List (Pattern × CExpr) → Prop
  | _, [] => True
  | names, (p, body) :: arms =>
    (∀ x ∈ reads G body, ¬ Hides p x) ∧ Undisturbed ({x | x ∈ patternBinders p} ∪ names) body ∧
      UndisturbedArms names arms

def UndisturbedInline : Set String → Template → List CExpr → Prop
  | _, [], _ => True
  | _, _ :: _, [] => True
  | names, steps :: template, e :: es =>
    Undisturbed names e ∧ Apart (leaks G e ++ stepNames steps) (readsInline G template es) ∧
      UndisturbedInline names template es

end

/-! ## Lambdas -/

mutual

/-- The number of lambdas in an expression. -/
def lambdas : CExpr → Nat
  | .literal _ => 0
  | .var _ => 0
  | .letE _ _ value body => lambdas value + lambdas body
  | .block statements result => lambdasAll statements + lambdas result
  | .call callee args => lambdas callee + lambdasAll args
  | .constructor _ args => lambdasAll args
  | .matchE scrutinee arms => lambdas scrutinee + lambdasArms arms
  | .recordLit fields => lambdasFields fields
  | .tupleLit items => lambdasAll items
  | .listLit items => lambdasAll items
  | .fieldAccess value _ => lambdas value
  | .binOp _ lhs rhs => lambdas lhs + lambdas rhs
  | .unaryOp _ expr => lambdas expr
  | .lambda _ _ _ _ body => lambdas body + 1
  | .returnE value => lambdas value

def lambdasAll : List CExpr → Nat
  | [] => 0
  | e :: es => lambdas e + lambdasAll es

def lambdasFields : List (String × CExpr) → Nat
  | [] => 0
  | (_, e) :: fields => lambdas e + lambdasFields fields

def lambdasArms : List (Pattern × CExpr) → Nat
  | [] => 0
  | (_, body) :: arms => lambdas body + lambdasArms arms

end

end LexLang.Compiler
