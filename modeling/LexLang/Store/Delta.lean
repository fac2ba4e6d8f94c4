/-
# LexLang.Store.Delta — the bytes of a stage as a splice into those of another

`splice`, `apply` and `is_worth_encoding` (`lex-store/src/delta.rs`). A delta keeps how many bytes are shared at
the start and at the end, and what stands between them, in hexadecimal digits.

`apply_isSome_iff`: the sum of a delta's two lengths is taken in 64 bits.
-/
import LexLang.Ast.Canonicalize
import Mathlib.Data.List.TakeWhile

namespace LexLang.Delta

open List

/-! ## Bytes -/

/-- The longest vector: `isize::MAX`. -/
def isizeMax : Nat := 2 ^ 63 - 1

/-- **Bytes in memory.** -/
abbrev Bytes := { bytes : List UInt8 // bytes.length ≤ isizeMax }

/-- `hex::decode`, one digit: of either case. -/
def hexValue (c : Char) : Option Nat :=
  if '0' ≤ c ∧ c ≤ '9' then some (c.toNat - 48)
  else if 'a' ≤ c ∧ c ≤ 'f' then some (c.toNat - 87)
  else if 'A' ≤ c ∧ c ≤ 'F' then some (c.toNat - 55)
  else none

/-- `hex::decode`: digits in pairs. -/
def unhexDigits : List Char → Option (List UInt8)
  | [] => some []
  | [_] => none
  | high :: low :: digits => do
    let high ← hexValue high
    let low ← hexValue low
    let bytes ← unhexDigits digits
    some (UInt8.ofNat (16 * high + low) :: bytes)

def unhex (digits : String) : Option (List UInt8) := unhexDigits digits.toList

theorem hexValue_hexDigit {n : Nat} (h : n < 16) : hexValue (Ast.hexDigit n) = some n := by
  have hall : ∀ i : Fin 16, hexValue (Ast.hexDigit i) = some i.1 := by decide
  exact hall ⟨n, h⟩

/-- **What is written in hexadecimal digits is read back.** -/
theorem unhex_hex (bytes : List UInt8) : unhex (Ast.hex bytes) = some bytes := by
  unfold unhex Ast.hex
  rw [String.toList_ofList]
  induction bytes with
  | nil => rfl
  | cons b bytes ih =>
    have hb : b.toNat < 256 := b.toNat_lt
    have hhigh : hexValue (Ast.hexDigit (b.toNat / 16)) = some (b.toNat / 16) := hexValue_hexDigit (by omega)
    have hlow : hexValue (Ast.hexDigit (b.toNat % 16)) = some (b.toNat % 16) := hexValue_hexDigit (by omega)
    have hbyte : UInt8.ofNat (16 * (b.toNat / 16) + b.toNat % 16) = b := by
      rw [show 16 * (b.toNat / 16) + b.toNat % 16 = b.toNat by omega]
      exact UInt8.ofNat_toNat
    show unhexDigits (_ :: _ :: flatMap _ bytes) = _
    rw [unhexDigits, hhigh, hlow, ih]
    show some (UInt8.ofNat (16 * (b.toNat / 16) + b.toNat % 16) :: bytes) = _
    rw [hbyte]

/-! ## Splices -/

def common_prefix_len (a b : List UInt8) : Nat := ((a.zip b).takeWhile fun p => p.1 == p.2).length

def common_suffix_len (a b : List UInt8) : Nat := common_prefix_len a.reverse b.reverse

/-- How many bytes are shared at the start, how many at the end, and what stands between them. The end does not
overlap the start, on either side. -/
def splice (base new : List UInt8) : Nat × Nat × List UInt8 :=
  let prefixLen := common_prefix_len base new
  let maxSuffix := min (base.length - prefixLen) (new.length - prefixLen)
  let suffixLen := common_suffix_len (base.drop (base.length - maxSuffix)) (new.drop (new.length - maxSuffix))
  (prefixLen, suffixLen, (new.drop prefixLen).take (new.length - suffixLen - prefixLen))

/-- `StageDelta`. -/
structure StageDelta where
  baseStageId : String
  chainLength : Nat
  commonPrefix : Nat
  commonSuffix : Nat
  middleHex : String

inductive DeltaError
  | invalidHex
  | overlappingSplice (baseLen prefixLen suffixLen : Nat)

/-- **Apply a splice.** `none` where it panics: in `checks` builds where the sum overflows, in others where a slice
is out of bounds. -/
def apply (checks : Bool) (base : List UInt8) (delta : StageDelta) : Option (Except DeltaError (List UInt8)) :=
  match unhex delta.middleHex with
  | none => some (.error .invalidHex)
  | some middle =>
    let sum := delta.commonPrefix + delta.commonSuffix
    if checks && 2 ^ 64 ≤ sum then none
    else if sum % 2 ^ 64 > base.length then
      some (.error (.overlappingSplice base.length delta.commonPrefix delta.commonSuffix))
    else if base.length < delta.commonPrefix || base.length < delta.commonSuffix then none
    else some (.ok (base.take delta.commonPrefix ++ middle ++ base.drop (base.length - delta.commonSuffix)))

def deltaChainCap : Nat := 32

/-- The middle is less than half of the new bytes. -/
def is_worth_encoding (middleLen newLen chainLength : Nat) : Bool :=
  if deltaChainCap < chainLength then false
  else if newLen = 0 then false
  else 2 * middleLen < newLen

/-! ## Round trips -/

theorem take_common_prefix_len : ∀ (a b : List UInt8),
    a.take (common_prefix_len a b) = b.take (common_prefix_len a b)
  | [], _ => by
    show [].take 0 = List.take 0 _
    rw [take_zero, take_zero]
  | _ :: _, [] => rfl
  | x :: a, y :: b => by
    unfold common_prefix_len
    rw [zip_cons_cons]
    by_cases h : x = y
    · subst h
      have hpair : ((x, x) :: a.zip b).takeWhile (fun p => p.1 == p.2) =
          (x, x) :: (a.zip b).takeWhile fun p => p.1 == p.2 := by
        simp
      rw [hpair, length_cons, take_succ_cons, take_succ_cons]
      exact congrArg (x :: ·) (take_common_prefix_len a b)
    · rw [takeWhile_cons_of_neg (by simpa using h)]
      rfl

theorem common_prefix_len_le (a b : List UInt8) :
    common_prefix_len a b ≤ a.length ∧ common_prefix_len a b ≤ b.length := by
  have hzip := ((a.zip b).takeWhile_sublist fun p => p.1 == p.2).length_le
  rw [length_zip] at hzip
  unfold common_prefix_len
  omega

theorem common_suffix_len_le (a b : List UInt8) :
    common_suffix_len a b ≤ a.length ∧ common_suffix_len a b ≤ b.length := by
  have hle := common_prefix_len_le a.reverse b.reverse
  rw [length_reverse, length_reverse] at hle
  exact hle

theorem drop_common_suffix_len (a b : List UInt8) :
    a.drop (a.length - common_suffix_len a b) = b.drop (b.length - common_suffix_len a b) := by
  have htake := take_common_prefix_len a.reverse b.reverse
  rw [take_reverse, take_reverse] at htake
  exact reverse_injective htake

/-- **What a splice shares**, and what it leaves. -/
structure Spliced (base new : List UInt8) (s : Nat × Nat × List UInt8) : Prop where
  fitsBase : s.1 + s.2.1 ≤ base.length
  whole : base.take s.1 ++ s.2.2 ++ base.drop (base.length - s.2.1) = new

theorem splice_spec (base new : List UInt8) : Spliced base new (splice base new) := by
  have hprefix := common_prefix_len_le base new
  have hstart := take_common_prefix_len base new
  unfold splice
  dsimp only
  generalize common_prefix_len base new = p at hprefix hstart ⊢
  generalize hm : min (base.length - p) (new.length - p) = m
  have hmBase : m ≤ base.length - p := by omega
  have hmNew : m ≤ new.length - p := by omega
  have hsuffix := common_suffix_len_le (base.drop (base.length - m)) (new.drop (new.length - m))
  have hend := drop_common_suffix_len (base.drop (base.length - m)) (new.drop (new.length - m))
  generalize common_suffix_len (base.drop (base.length - m)) (new.drop (new.length - m)) = s at hsuffix hend ⊢
  rw [length_drop, length_drop] at hsuffix
  rw [length_drop, length_drop, drop_drop, drop_drop] at hend
  have hdrop : base.drop (base.length - s) = new.drop (new.length - s) := by
    have hbase : base.length - m + (base.length - (base.length - m) - s) = base.length - s := by omega
    have hnew : new.length - m + (new.length - (new.length - m) - s) = new.length - s := by omega
    rw [hbase, hnew] at hend
    exact hend
  refine ⟨?_, ?_⟩
  · show p + s ≤ base.length
    omega
  · show base.take p ++ (new.drop p).take (new.length - s - p) ++ base.drop (base.length - s) = new
    rw [hstart, hdrop, append_assoc]
    have hmiddle : (new.drop p).take (new.length - s - p) ++ new.drop (new.length - s) = new.drop p := by
      have hsplit : new.drop (new.length - s) = (new.drop p).drop (new.length - s - p) := by
        rw [drop_drop]
        congr 1
        omega
      rw [hsplit, take_append_drop]
    rw [hmiddle, take_append_drop]

/-- The delta of a splice. -/
def deltaOf (baseStageId : String) (chainLength : Nat) (base new : List UInt8) : StageDelta :=
  let s := splice base new
  ⟨baseStageId, chainLength, s.1, s.2.1, Ast.hex s.2.2⟩

/-- **A splice gives the new bytes back.** -/
theorem apply_splice (checks : Bool) (baseStageId : String) (chainLength : Nat) (base : Bytes) (new : List UInt8) :
    apply checks base (deltaOf baseStageId chainLength base new) = some (.ok new) := by
  have hspec := splice_spec base.1 new
  have hfits := hspec.fitsBase
  have hbase := base.2
  unfold isizeMax at hbase
  unfold apply deltaOf
  dsimp only
  rw [unhex_hex]
  dsimp only
  have hnot : (checks && decide (2 ^ 64 ≤ (splice base.1 new).1 + (splice base.1 new).2.1)) = false := by
    rw [Bool.and_eq_false_iff]
    right
    rw [decide_eq_false_iff_not]
    omega
  rw [hnot, if_neg Bool.false_ne_true, Nat.mod_eq_of_lt (by omega), if_neg (by omega), if_neg, hspec.whole]
  rw [Bool.or_eq_true, decide_eq_true_eq, decide_eq_true_eq]
  omega

/-! ## Deltas that are read from a file -/

/-- **`apply` answers**: the digits are none, or the sum of the lengths does not overflow, or it comes out as more
than there is, where overflow is not checked. -/
theorem apply_isSome_iff (checks : Bool) (base : Bytes) (delta : StageDelta) :
    (apply checks base delta).isSome = true ↔
      unhex delta.middleHex = none ∨ delta.commonPrefix + delta.commonSuffix < 2 ^ 64 ∨
        checks = false ∧ base.1.length < (delta.commonPrefix + delta.commonSuffix) % 2 ^ 64 := by
  have hbase := base.2
  unfold isizeMax at hbase
  unfold apply
  cases unhex delta.middleHex with
  | none => exact iff_of_true rfl (.inl rfl)
  | some middle =>
    dsimp only
    by_cases hsum : delta.commonPrefix + delta.commonSuffix < 2 ^ 64
    · -- the check is exact
      refine iff_of_true ?_ (.inr (.inl hsum))
      rw [Nat.mod_eq_of_lt hsum, if_neg (by simp; omega)]
      split
      · rfl
      · rw [if_neg (by simp; omega)]
        rfl
    · cases checks with
      | true =>
        rw [if_pos (by simp; omega)]
        refine iff_of_false nofun ?_
        rintro (h | h | ⟨h, -⟩)
        · exact nomatch h
        · exact hsum h
        · exact nomatch h
      | false =>
        rw [if_neg (by simp)]
        by_cases hmod : (delta.commonPrefix + delta.commonSuffix) % 2 ^ 64 > base.1.length
        · rw [if_pos hmod]
          exact iff_of_true rfl (.inr (.inr ⟨rfl, hmod⟩))
        · -- one of the lengths is more than there is
          rw [if_neg hmod, if_pos (by simp; omega)]
          refine iff_of_false nofun ?_
          rintro (h | h | ⟨-, h⟩)
          · exact nomatch h
          · exact hsum h
          · exact hmod h

end LexLang.Delta
