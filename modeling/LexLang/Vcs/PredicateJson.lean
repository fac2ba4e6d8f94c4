/-
# LexLang.Vcs.PredicateJson — a saved query as JSON, and back

`Predicate::to_value` writes an object whose `predicate` key names the kind of query
(`lex-vcs/src/predicate.rs`); `Predicate::from_value` reads the keys a kind needs and no others.
-/
import LexLang.Json.Value
import LexLang.Vcs.Predicate

namespace LexLang.Vcs.Predicate

open LexLang.Json

mutual

/-- **Write a query.** -/
def toValue : Predicate → Value
  | .all => .object [("predicate", .string "all")]
  | .intent intentId =>
    .object [("predicate", .string "intent"), ("intent_id", .string intentId)]
  | .session sessionId =>
    .object [("predicate", .string "session"), ("session_id", .string sessionId)]
  | .ancestorOf opId => .object [("predicate", .string "ancestor_of"), ("op_id", .string opId)]
  | .and ps => .object [("predicate", .string "and"), ("clauses", .array (toValues ps))]
  | .or ps => .object [("predicate", .string "or"), ("clauses", .array (toValues ps))]
  | .not p => .object [("predicate", .string "not"), ("clause", toValue p)]

def toValues : List Predicate → List Value
  | [] => []
  | p :: ps => toValue p :: toValues ps

end

/-- The text under a key. -/
def textOf (key : String) (obj : List (String × Value)) : Option String :=
  match obj.lookup key with
  | some (.string text) => some text
  | _ => none

mutual

/-- **Read a query**, or say what is missing. -/
def fromValue : Value → Except String Predicate
  | .object obj =>
    match textOf "predicate" obj with
    | none => .error "predicate object missing 'predicate' tag"
    | some tag =>
      if tag = "all" then .ok .all
      else if tag = "intent" then
        match textOf "intent_id" obj with
        | some id => .ok (.intent id)
        | none => .error "intent: missing intent_id"
      else if tag = "session" then
        match textOf "session_id" obj with
        | some id => .ok (.session id)
        | none => .error "session: missing session_id"
      else if tag = "ancestor_of" then
        match textOf "op_id" obj with
        | some id => .ok (.ancestorOf id)
        | none => .error "ancestor_of: missing op_id"
      else if tag = "and" ∨ tag = "or" then
        match clausesIn tag obj with
        | .ok ps => .ok (if tag = "and" then .and ps else .or ps)
        | .error e => .error e
      else if tag = "not" then
        match clauseIn obj with
        | .ok p => .ok (.not p)
        | .error e => .error e
      else .error ("unknown predicate tag: " ++ tag)
  | _ => .error "predicate must be a JSON object"

/-- The query under the key `clause`. -/
def clauseIn : List (String × Value) → Except String Predicate
  | [] => .error "not: missing 'clause'"
  | (key, v) :: obj => if key = "clause" then fromValue v else clauseIn obj

/-- The queries under the key `clauses`. -/
def clausesIn (tag : String) : List (String × Value) → Except String (List Predicate)
  | [] => .error (tag ++ ": missing 'clauses' array")
  | (key, v) :: obj => if key = "clauses" then fromArray tag v else clausesIn tag obj

def fromArray (tag : String) : Value → Except String (List Predicate)
  | .array items => fromValues items
  | _ => .error (tag ++ ": missing 'clauses' array")

/-- Read one query after the other, up to the first that cannot be read. -/
def fromValues : List Value → Except String (List Predicate)
  | [] => .ok []
  | item :: items =>
    match fromValue item with
    | .error e => .error e
    | .ok p =>
      match fromValues items with
      | .error e => .error e
      | .ok ps => .ok (p :: ps)

end

mutual

/-- **A query that is written is read back.** -/
theorem fromValue_toValue : ∀ p : Predicate, fromValue p.toValue = .ok p
  | .all | .intent _ | .session _ | .ancestorOf _ => by
    simp [toValue, fromValue, textOf, List.lookup_cons]
  | .and ps | .or ps => by
    simp [toValue, fromValue, textOf, clausesIn, fromArray, fromValues_toValues ps]
  | .not p => by simp [toValue, fromValue, textOf, clauseIn, fromValue_toValue p]

theorem fromValues_toValues : ∀ ps : List Predicate, fromValues (toValues ps) = .ok ps
  | [] => rfl
  | p :: ps => by simp [toValues, fromValues, fromValue_toValue p, fromValues_toValues ps]

end

end LexLang.Vcs.Predicate
