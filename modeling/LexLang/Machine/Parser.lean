/-
# LexLang.Machine.Parser — parsers that call back into the machine

`run_parser` (`lex-bytecode/src/parser_runtime.rs`): a parser is a record, the text is its bytes. The nodes
that run other parsers, or call a function, wait for them on the host's stack.
-/
import LexLang.Machine.State

namespace LexLang.Machine

/-! ## The nodes without parts -/

def isAsciiDigit (b : UInt8) : Bool := 48 ≤ b && b ≤ 57

def isAsciiAlphabetic (b : UInt8) : Bool := (65 ≤ b && b ≤ 90) || (97 ≤ b && b ≤ 122)

def isAsciiWhitespace (b : UInt8) : Bool := b == 32 || b == 9 || b == 10 || b == 12 || b == 13

/-- The parsers of one byte of a class. -/
def byteClass (pred : UInt8 → Bool) (expected : String) (input : List UInt8) (pos : Nat) :
    Except (Nat × String) (Value × Nat) :=
  match input[pos]? with
  | some b => if pred b then .ok (.str (.singleton (.ofNat b.toNat)), pos + 1) else .error (pos, expected)
  | none => .error (pos, expected)

def parseChar (host : Host) (want : String) (input : List UInt8) (pos : Nat) :
    Except (Nat × String) (Value × Nat) :=
  let bytes := want.toUTF8.toList
  if input.length < pos + bytes.length then .error (pos, "expected " ++ host.debug (.str want) ++ ", got EOF")
  else if (input.drop pos).take bytes.length = bytes then .ok (.str want, pos + bytes.length)
  else .error (pos, "expected " ++ host.debug (.str want))

def parseString (host : Host) (want : String) (input : List UInt8) (pos : Nat) :
    Except (Nat × String) (Value × Nat) :=
  let bytes := want.toUTF8.toList
  if bytes.isPrefixOf (input.drop pos) then .ok (.str want, pos + bytes.length)
  else .error (pos, "expected " ++ host.debug (.str want))

/-! ## The walk -/

namespace Vm

variable (host : Host) (vm : Vm)

/-- Wait for the parser in a field. -/
def parsePart (kind field : String) (fields : List (String × Value)) (input : List UInt8) (pos : Nat)
    (native : Native) : Vm :=
  match fields.lookup field with
  | some p => vm.await native (.parse input p pos)
  | none => vm.goto (.parsed (.error (pos, kind ++ ": missing " ++ field)))

/-- Look a second field up before the first one is run. -/
def withPart (kind first second : String) (fields : List (String × Value)) (pos : Nat) (k : Value → Vm) : Vm :=
  match fields.lookup first, fields.lookup second with
  | none, _ => vm.goto (.parsed (.error (pos, kind ++ ": missing " ++ first)))
  | some _, none => vm.goto (.parsed (.error (pos, kind ++ ": missing " ++ second)))
  | some _, some v => k v

/-- `run_parser`, up to where it needs another parser. -/
def parse (input : List UInt8) (node : Value) (pos : Nat) : Vm :=
  match node with
  | .record _ fields =>
    match fields.lookup "kind" with
    | some (.str kind) =>
      match kind with
      | "Char" =>
        match fields.lookup "ch" with
        | some (.str want) => vm.goto (.parsed (parseChar host want input pos))
        | _ => vm.goto (.parsed (.error (pos, "char: missing ch")))
      | "String" =>
        match fields.lookup "s" with
        | some (.str want) => vm.goto (.parsed (parseString host want input pos))
        | _ => vm.goto (.parsed (.error (pos, "string: missing s")))
      | "Digit" => vm.goto (.parsed (byteClass isAsciiDigit "expected digit" input pos))
      | "Alpha" => vm.goto (.parsed (byteClass isAsciiAlphabetic "expected alpha" input pos))
      | "Whitespace" => vm.goto (.parsed (byteClass isAsciiWhitespace "expected whitespace" input pos))
      | "Eof" =>
        vm.goto (.parsed (if pos = input.length then .ok (.unit, pos) else .error (pos, "expected EOF")))
      | "Seq" =>
        vm.withPart "seq" "a" "b" fields pos fun b =>
          vm.parsePart "seq" "a" fields input pos (.seqFirst b input)
      | "Alt" =>
        vm.withPart "alt" "a" "b" fields pos fun b =>
          vm.parsePart "alt" "a" fields input pos (.alt b input pos)
      | "Many" =>
        match fields.lookup "p" with
        | some p => vm.await (.many p input pos []) (.parse input p pos)
        | none => vm.goto (.parsed (.error (pos, "many: missing p")))
      | "Optional" => vm.parsePart "optional" "p" fields input pos (.optional pos)
      | "Map" =>
        vm.withPart "map" "p" "f" fields pos fun f =>
          vm.parsePart "map" "p" fields input pos (.mapParsed f pos)
      | "AndThen" =>
        vm.withPart "and_then" "p" "f" fields pos fun f =>
          vm.parsePart "and_then" "p" fields input pos (.andThenParsed f input)
      | other => vm.goto (.parsed (.error (pos, "unknown parser kind: " ++ host.debug (.str other))))
    | _ => vm.goto (.parsed (.error (pos, "parser: malformed node (no kind)")))
  | _ => vm.goto (.parsed (.error (pos, "parser: expected Parser node")))

/-- What `parser.run` makes of the result. -/
def parserResult : Except (Nat × String) (Value × Nat) → Value
  | .ok (v, _) => .variant "Ok" [v]
  | .error (pos, msg) =>
    .variant "Err" [.record (host.dynamicShape ["message", "pos"])
      [("pos", .int (.ofNat pos)), ("message", .str msg)]]

/-- Go on with a parser that has come back, in the part that waited for it. -/
def afterParse (native : Native) (result : Except (Nat × String) (Value × Nat)) : Vm :=
  match native, result with
  | .runParserOp, r => vm.goto (.replied (.ok (parserResult host r)))
  | .seqFirst b input, .ok (va, p1) => vm.await (.seqSecond va) (.parse input b p1)
  | .seqSecond va, .ok (vb, p2) => vm.goto (.parsed (.ok (.tuple [va, vb], p2)))
  -- the failure of the first alternative is forgotten
  | .alt b input pos, .error _ => vm.goto (.parse input b pos)
  | .alt _ _ _, .ok r => vm.goto (.parsed (.ok r))
  | .many p input cur out, .ok (v, np) =>
    if cur < np then vm.await (.many p input np (out ++ [v])) (.parse input p np)
    else vm.goto (.parsed (.ok (.list out, cur)))
  | .many _ _ cur out, .error _ => vm.goto (.parsed (.ok (.list out, cur)))
  | .optional _, .ok (v, np) => vm.goto (.parsed (.ok (.variant "Some" [v], np)))
  | .optional pos, .error _ => vm.goto (.parsed (.ok (.variant "None" [], pos)))
  | .mapParsed f pos, .ok (v, np) => vm.await (.mapCalled pos np) (.invokeClosure f [v])
  | .andThenParsed f input, .ok (v, np) => vm.await (.andThenCalled input np) (.invokeClosure f [v])
  | .seqFirst _ _, .error e | .seqSecond _, .error e | .mapParsed _ _, .error e
  | .andThenParsed _ _, .error e => vm.goto (.parsed (.error e))
  | _, _ => vm.goto .crashed

end Vm

end LexLang.Machine
