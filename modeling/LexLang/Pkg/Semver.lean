/-
# LexLang.Pkg.Semver — versions, constraints and bumps

`lex-syntax/src/semver.rs`: `MAJOR.MINOR.PATCH` versions of 64-bit numbers, the constraints a
dependency resolves under, and the bump between two releases. A constraint is read from its text;
`satisfies_iff_spans` is what `^v` and `~v` mean.
-/
import LexLang.Vcs.DiffToOps

namespace LexLang.Pkg

open LexLang.Vcs (parseU64 stripPrefix)
open List Option

/-! ## Versions -/

/-- A version. -/
structure Version where
  major : Nat
  minor : Nat
  patch : Nat
  deriving DecidableEq

namespace Version

/-- The order of versions: by the first number that differs. -/
def Lt (a b : Version) : Prop :=
  a.major < b.major ∨ a.major = b.major ∧
    (a.minor < b.minor ∨ a.minor = b.minor ∧ a.patch < b.patch)

instance : LT Version := ⟨Lt⟩

instance : LE Version := ⟨fun a b => ¬ b < a⟩

variable {a b : Version}

theorem lt_iff : a < b ↔ a.major < b.major ∨ a.major = b.major ∧
    (a.minor < b.minor ∨ a.minor = b.minor ∧ a.patch < b.patch) := Iff.rfl

theorem le_iff : a ≤ b ↔ ¬ (b.major < a.major ∨ b.major = a.major ∧
    (b.minor < a.minor ∨ b.minor = a.minor ∧ b.patch < a.patch)) := Iff.rfl

instance (a b : Version) : Decidable (a < b) := decidable_of_iff _ lt_iff.symm

instance (a b : Version) : Decidable (a ≤ b) := decidable_of_iff _ le_iff.symm

theorem eq_of_le_of_le (hab : a ≤ b) (hba : b ≤ a) : a = b := by
  rw [le_iff] at hab hba
  cases a
  cases b
  simp only [mk.injEq] at *
  omega

theorem le_refl (a : Version) : a ≤ a := by
  rw [le_iff]
  omega

theorem le_trans {c : Version} (hab : a ≤ b) (hbc : b ≤ c) : a ≤ c := by
  rw [le_iff] at *
  omega

theorem le_of_lt (h : a < b) : a ≤ b := by
  rw [lt_iff] at h
  rw [le_iff]
  omega

theorem le_of_not_lt (h : ¬ a < b) : b ≤ a := h

end Version

/-- White space, as a `trim` knows it. -/
def isWhitespace (c : Char) : Bool :=
  let n := c.toNat
  (9 ≤ n && n ≤ 13) || n == 32 || n == 0x85 || n == 0xA0 || n == 0x1680 ||
    (0x2000 ≤ n && n ≤ 0x200A) || n == 0x2028 || n == 0x2029 || n == 0x202F || n == 0x205F ||
    n == 0x3000

/-- `trim`. -/
def trim (s : List Char) : List Char :=
  ((s.dropWhile isWhitespace).reverse.dropWhile isWhitespace).reverse

/-- One number of a version. -/
def parseNumber (s : List Char) : Option Nat := (parseU64 (trim s)).map UInt64.toNat

/-- A version with one to three numbers, the missing ones zero, and how many there are. -/
def parsePartial (s : List Char) : Option (Version × Nat) :=
  let s := trim ((trim s).dropWhile (· = 'v'))
  if s = [] then none
  else
    match s.splitOn '.' with
    | [major] => do
      let major ← parseNumber major
      some (⟨major, 0, 0⟩, 1)
    | [major, minor] => do
      let major ← parseNumber major
      let minor ← parseNumber minor
      some (⟨major, minor, 0⟩, 2)
    | [major, minor, patch] => do
      let major ← parseNumber major
      let minor ← parseNumber minor
      let patch ← parseNumber patch
      some (⟨major, minor, patch⟩, 3)
    | _ => none

/-- A version with all three. -/
def parseExact (v : String) : Option Version :=
  match parsePartial v.toList with
  | some (version, 3) => some version
  | _ => none

/-! ## Constraints -/

/-- The next 64-bit number. -/
def nextU64 (n : Nat) : Nat := (n + 1) % 2 ^ 64

inductive Cmp
  | ge
  | gt
  | le
  | lt

/-- What a dependency may resolve to. -/
inductive Constraint
  | any
  | exact (version : Version)
  | caret (low high : Version)
  | tilde (low high : Version)
  | compare (cmp : Cmp) (version : Version)

/-- The exclusive end of a caret: the first number that is not zero is fixed. -/
def caretUpper (v : Version) (given : Nat) : Version :=
  if 0 < v.major then ⟨nextU64 v.major, 0, 0⟩
  else if 0 < v.minor then ⟨0, nextU64 v.minor, 0⟩
  else if 0 < v.patch then ⟨0, 0, nextU64 v.patch⟩
  else
    match given with
    | 1 => ⟨1, 0, 0⟩
    | 2 => ⟨0, 1, 0⟩
    | _ => ⟨0, 0, 1⟩

/-- The exclusive end of a tilde: the minor number is fixed, if it is given. -/
def tildeUpper (v : Version) (given : Nat) : Version :=
  if 2 ≤ given then ⟨v.major, nextU64 v.minor, 0⟩ else ⟨nextU64 v.major, 0, 0⟩

/-- A constraint with no operator: three numbers are exactly that, fewer are a caret. -/
def parseBare (s : List Char) : Option Constraint :=
  (parsePartial s).map fun (v, given) =>
    if given = 3 then .exact v else .caret v (caretUpper v given)

/-- Read a constraint. -/
def parseConstraint (s : List Char) : Option Constraint :=
  let s := trim s
  if s = [] ∨ s = ['*'] ∨ s.map Char.toLower = "latest".toList then some .any
  else
    match stripPrefix ['^'] s with
    | some rest => (parsePartial rest).map fun (v, given) => .caret v (caretUpper v given)
    | none =>
      match stripPrefix ['~'] s with
      | some rest => (parsePartial rest).map fun (v, given) => .tilde v (tildeUpper v given)
      | none =>
        match stripPrefix ['>', '='] s with
        | some rest => (parsePartial rest).map fun (v, _) => .compare .ge v
        | none =>
          match stripPrefix ['<', '='] s with
          | some rest => (parsePartial rest).map fun (v, _) => .compare .le v
          | none =>
            match stripPrefix ['>'] s with
            | some rest => (parsePartial rest).map fun (v, _) => .compare .gt v
            | none =>
              match stripPrefix ['<'] s with
              | some rest => (parsePartial rest).map fun (v, _) => .compare .lt v
              | none =>
                match stripPrefix ['='] s with
                | some rest => (parsePartial rest).map fun (v, _) => .exact v
                | none => parseBare s

/-- A version is one a constraint allows. -/
def Constraint.allows (c : Constraint) (v : Version) : Bool :=
  match c with
  | .any => true
  | .exact e => decide (v = e)
  | .caret low high => decide (low ≤ v) && decide (v < high)
  | .tilde low high => decide (low ≤ v) && decide (v < high)
  | .compare .ge r => decide (r ≤ v)
  | .compare .gt r => decide (r < v)
  | .compare .le r => decide (v ≤ r)
  | .compare .lt r => decide (v < r)

/-- **A version satisfies a constraint.** What cannot be read does not. -/
def satisfies (constraint version : String) : Bool :=
  match parseConstraint constraint.toList, parseExact version with
  | some c, some v => c.allows v
  | _, _ => false

/-! ## Bumps -/

/-- The kind of step between two releases. -/
inductive Bump
  | patch
  | minor
  | major
  deriving DecidableEq

/-- `Patch < Minor < Major`. -/
def Bump.rank : Bump → Nat
  | .patch => 0
  | .minor => 1
  | .major => 2

/-- The step from one version to a later one. -/
def bumpBetween (prev new : String) : Option Bump := do
  let p ← parseExact prev
  let n ← parseExact new
  if n ≤ p then none
  else if p.major < n.major then some .major
  else if p.minor < n.minor then some .minor
  else some .patch

/-! ## Ranges -/

/-- The operators whose range ends. -/
inductive Range
  | caret
  | tilde
  deriving DecidableEq

/-- Where its range ends. -/
def Range.upper (v : Version) (given : Nat) : Range → Version
  | .caret => caretUpper v given
  | .tilde => tildeUpper v given

def Range.operator : Range → Char
  | .caret => '^'
  | .tilde => '~'

/-- The operator as a text. -/
def Range.text : Range → String
  | .caret => "^"
  | .tilde => "~"

/-- What it is read as. -/
def Range.constraint (v : Version) (given : Nat) : Range → Constraint
  | .caret => .caret v (caretUpper v given)
  | .tilde => .tilde v (tildeUpper v given)

/-- The number that its end counts on from. -/
def Range.counted (v : Version) (given : Nat) : Range → Nat
  | .caret => if 0 < v.major then v.major else if 0 < v.minor then v.minor else v.patch
  | .tilde => if 2 ≤ given then v.minor else v.major

/-- **What it is for**: of the numbers that are given, a caret keeps the left-most that is not zero and those
left of it, a tilde those up to the minor. -/
def Range.Keeps (v : Version) (given : Nat) (w : Version) : Range → Prop
  | .caret => w.major = v.major ∧ (v.major = 0 → 2 ≤ given → w.minor = v.minor ∧
      (v.minor = 0 → 3 ≤ given → w.patch = v.patch))
  | .tilde => w.major = v.major ∧ (2 ≤ given → w.minor = v.minor)

/-- The range that a constraint is written as, if it is: the operator, the version and how many numbers it has. -/
def readRange (s : List Char) : Option (Range × Version × Nat) :=
  let s := trim s
  if s = [] ∨ s = ['*'] ∨ s.map Char.toLower = "latest".toList then none
  else
    match s.head? with
    | some '^' => (parsePartial s.tail).map (.caret, ·)
    | some '~' => (parsePartial s.tail).map (.tilde, ·)
    | some '>' | some '<' | some '=' => none
    | _ => ((parsePartial s).filter (·.2 ≠ 3)).map (.caret, ·)

variable {r : Range} {v w : Version} {given : Nat} {s : List Char}

/-- Numbers that are not given are zero. -/
theorem parsePartial_given (h : parsePartial s = some (v, given)) : 1 ≤ given ∧ given ≤ 3 ∧
    (given = 1 → v.minor = 0) ∧ (given ≤ 2 → v.patch = 0) := by
  unfold parsePartial at h
  dsimp only at h
  split at h
  · cases h
  · split at h
    all_goals
      simp only [bind_eq_bind, bind_eq_some_iff, some.injEq, Prod.mk.injEq, reduceCtorEq] at h
    · obtain ⟨_, _, rfl, rfl⟩ := h
      simp
    · obtain ⟨_, _, _, _, rfl, rfl⟩ := h
      simp
    · obtain ⟨_, _, _, _, _, _, rfl, rfl⟩ := h
      simp

theorem readRange_spec (h : readRange s = some (r, v, given)) : parseConstraint s = some (r.constraint v given) ∧
    ∃ rest, parsePartial rest = some (v, given) := by
  unfold readRange at h
  unfold parseConstraint
  dsimp only at h ⊢
  generalize trim s = s at h ⊢
  have hnone : ∀ {c p}, s.head? ≠ some c → stripPrefix (c :: p) s = none := by
    intro c p hc
    refine if_neg fun hp => hc ?_
    obtain ⟨t, rfl⟩ := isPrefixOf_iff_prefix.mp hp
    rfl
  have hsome : ∀ {c}, s.head? = some c → stripPrefix [c] s = some s.tail := by
    intro c hc
    cases s <;> simp_all [stripPrefix]
  split at h
  · cases h
  · rename_i hany
    rw [if_neg hany]
    split at h
    · rename_i hhead
      obtain ⟨⟨v', given'⟩, hread, heq⟩ := map_eq_some_iff.mp h
      cases heq
      simp only [hsome hhead, hread, map_some]
      exact ⟨rfl, _, hread⟩
    · rename_i hhead
      obtain ⟨⟨v', given'⟩, hread, heq⟩ := map_eq_some_iff.mp h
      cases heq
      simp only [hnone (c := '^') (by simp [hhead]), hsome hhead, hread, map_some]
      exact ⟨rfl, _, hread⟩
    · cases h
    · cases h
    · cases h
    · rename_i hcaret htilde hgt hlt heq
      obtain ⟨⟨v', given'⟩, hread, heq⟩ := map_eq_some_iff.mp h
      cases heq
      obtain ⟨hread, hgiven⟩ := Option.filter_eq_some_iff.mp hread
      have hgiven : given ≠ 3 := by simpa using hgiven
      exact ⟨by simp [hnone hcaret, hnone htilde, hnone hgt, hnone hlt, hnone heq, parseBare, hread, hgiven,
        Range.constraint], _, hread⟩

/-- **The range is the one it is for, unless its end overflows.** -/
theorem Range.allows_iff (h : parsePartial s = some (v, given)) :
    (∀ w, (r.constraint v given).allows w = true ↔ v ≤ w ∧ r.Keeps v given w) ↔
      r.counted v given + 1 < 2 ^ 64 := by
  obtain ⟨hlow, hhigh, hone, htwo⟩ := parsePartial_given h
  have hlt : ∀ w, (r.constraint v given).allows w = true ↔ v ≤ w ∧ w < r.upper v given := by
    intro w
    cases r <;> simp [constraint, Constraint.allows, upper]
  simp only [hlt, and_congr_right_iff, Version.lt_iff]
  clear h hlt
  obtain rfl | rfl | rfl : given = 1 ∨ given = 2 ∨ given = 3 := by omega
  all_goals
    simp only [Nat.reduceLeDiff, Nat.reduceEqDiff, forall_const, IsEmpty.forall_iff, le_refl] at hone htwo
    cases r with
    | caret =>
      simp only [upper, caretUpper, nextU64, Keeps, counted, Nat.reduceLeDiff, forall_const, IsEmpty.forall_iff]
      constructor
      · intro hall
        specialize hall v (Version.le_refl v)
        split_ifs at * <;> simp at * <;> omega
      · intro hfits w hle
        rw [Version.le_iff] at hle
        split_ifs at * <;> simp at * <;> omega
    | tilde =>
      simp only [upper, tildeUpper, nextU64, Keeps, counted, Nat.reduceLeDiff, if_true, if_false, forall_const,
        IsEmpty.forall_iff, and_true]
      constructor
      · intro hall
        specialize hall v (Version.le_refl v)
        omega
      · intro hfits w hle
        rw [Version.le_iff] at hle
        omega

/-! ## What `^v` and `~v` allow -/

/-- A text without white space. -/
def Unspaced (s : String) : Prop := ∀ c ∈ s.toList, isWhitespace c = false

theorem trim_of_unspaced {s : List Char} (h : ∀ c ∈ s, isWhitespace c = false) : trim s = s := by
  have hdrop : ∀ l : List Char, (∀ c ∈ l, isWhitespace c = false) → l.dropWhile isWhitespace = l := by
    intro l hl
    cases l with
    | nil => rfl
    | cons c l =>
      rw [dropWhile_cons, hl c mem_cons_self]
      rfl
  have hreverse : ∀ c ∈ s.reverse, isWhitespace c = false := fun c hc => h c (mem_reverse.mp hc)
  rw [trim, hdrop s h, hdrop s.reverse hreverse, reverse_reverse]

/-- A version lies in the range of a caret, … -/
def CaretRange (v w : Version) : Prop := v ≤ w ∧ w < caretUpper v 3

/-- … or of a tilde. -/
def TildeRange (v w : Version) : Prop := v ≤ w ∧ w < tildeUpper v 3

def Range.Spans (v w : Version) : Range → Prop
  | .caret => CaretRange v w
  | .tilde => TildeRange v w

variable {p : Version}

theorem parsePartial_of_parseExact {v : String} (h : parseExact v = some p) :
    parsePartial v.toList = some (p, 3) := by
  unfold parseExact at h
  split at h
  · next version hread =>
    obtain rfl := some.inj h
    exact hread
  · cases h

/-- An operator before a version stays where it is, and is neither `*` nor `latest`. -/
theorem operator_spec {operator : Char} {v : List Char} (hspace : ∀ c ∈ v, isWhitespace c = false)
    (hoperator : isWhitespace operator = false) (hstar : operator ≠ '*') (hlatest : operator.toLower ≠ 'l') :
    trim (operator :: v) = operator :: v ∧ ¬ (operator :: v = [] ∨ operator :: v = ['*'] ∨
      (operator :: v).map Char.toLower = "latest".toList) := by
  constructor
  · apply trim_of_unspaced
    intro c hc
    rcases mem_cons.mp hc with rfl | hc
    · exact hoperator
    · exact hspace c hc
  · rintro (heq | heq | heq)
    · cases heq
    · exact hstar (List.cons.inj heq).1
    · have htext : "latest".toList = ['l', 'a', 't', 'e', 's', 't'] := by decide +kernel
      rw [htext, map_cons] at heq
      exact hlatest (List.cons.inj heq).1

theorem parseConstraint_range {v : String} (hspace : Unspaced v) (h : parseExact v = some p) :
    parseConstraint (r.text ++ v).toList = some (r.constraint p 3) := by
  have htext : (r.text ++ v).toList = r.operator :: v.toList := by
    rw [String.toList_append]
    cases r <;> rfl
  obtain ⟨htrim, -⟩ := @operator_spec r.operator v.toList hspace (by cases r <;> decide)
    (by cases r <;> decide) (by cases r <;> decide)
  have hread : readRange (r.text ++ v).toList = some (r, p, 3) := by
    rw [htext, readRange, htrim]
    cases r <;> simp [Range.operator, parsePartial_of_parseExact h]
  exact (readRange_spec hread).1

/-- **`^v` and `~v` allow what is not before `v` and before the end of their range.** -/
theorem satisfies_iff_spans {v w : String} {q : Version} (hspace : Unspaced v) (hv : parseExact v = some p)
    (hw : parseExact w = some q) : satisfies (r.text ++ v) w = true ↔ r.Spans p q := by
  simp only [satisfies, parseConstraint_range hspace hv, hw]
  cases r <;> simp [Range.constraint, Constraint.allows, Range.Spans, CaretRange, TildeRange]

/-! ## Ranges within ranges -/

section Ranges

variable {v s w : Version}

theorem CaretRange.major_eq (h : CaretRange v w) : w.major = v.major := by
  obtain ⟨hle, hlt⟩ := h
  rw [Version.le_iff] at hle
  unfold caretUpper nextU64 at hlt
  split at hlt
  · rw [Version.lt_iff] at hlt
    simp only at hlt
    omega
  · split at hlt
    · rw [Version.lt_iff] at hlt
      simp only at hlt
      omega
    · split at hlt
      · rw [Version.lt_iff] at hlt
        simp only at hlt
        omega
      · rw [Version.lt_iff] at hlt
        simp only at hlt
        omega

theorem TildeRange.minor_eq (h : TildeRange v w) : w.major = v.major ∧ w.minor = v.minor := by
  obtain ⟨hle, hlt⟩ := h
  rw [Version.le_iff] at hle
  unfold tildeUpper nextU64 at hlt
  rw [if_pos (by omega), Version.lt_iff] at hlt
  simp only at hlt
  omega

/-- **What lies in a caret between two versions is in the caret of the lower, and has the upper in
its own.** -/
theorem CaretRange.of_between (h : CaretRange v w) (hvs : v ≤ s) (hsw : s ≤ w) : CaretRange v s ∧ CaretRange s w := by
  obtain ⟨hvw, hlt⟩ := h
  have hhigh : s < caretUpper v 3 := by
    rw [Version.le_iff] at hsw
    rw [Version.lt_iff] at hlt ⊢
    omega
  refine ⟨⟨hvs, hhigh⟩, hsw, ?_⟩
  -- the ends are the same: the numbers that fix them are
  have hupper : caretUpper s 3 = caretUpper v 3 := by
    have hmajor := CaretRange.major_eq ⟨hvs, hhigh⟩
    rw [Version.le_iff] at hvs
    unfold caretUpper at hhigh ⊢
    rw [hmajor]
    by_cases hv : 0 < v.major
    · rw [if_pos hv, if_pos hv]
    · rw [if_neg hv] at hhigh
      rw [if_neg hv, if_neg hv]
      have hminor : s.minor = v.minor := by
        unfold nextU64 at hhigh
        split at hhigh
        · rw [Version.lt_iff] at hhigh
          simp only at hhigh
          omega
        · split at hhigh <;> rw [Version.lt_iff] at hhigh <;> simp only at hhigh <;> omega
      rw [hminor]
      by_cases hv' : 0 < v.minor
      · rw [if_pos hv', if_pos hv']
      · rw [if_neg hv'] at hhigh
        have hpatch : s.patch = v.patch := by
          unfold nextU64 at hhigh
          split at hhigh <;> rw [Version.lt_iff] at hhigh <;> simp only at hhigh <;> omega
        rw [hpatch]
  rw [hupper]
  exact hlt

theorem TildeRange.of_between (h : TildeRange v w) (hvs : v ≤ s) (hsw : s ≤ w) : TildeRange v s ∧ TildeRange s w := by
  obtain ⟨hvw, hlt⟩ := h
  have hhigh : s < tildeUpper v 3 := by
    rw [Version.le_iff] at hsw
    rw [Version.lt_iff] at hlt ⊢
    omega
  obtain ⟨hmajor, hminor⟩ := TildeRange.minor_eq ⟨hvs, hhigh⟩
  refine ⟨⟨hvs, hhigh⟩, hsw, ?_⟩
  unfold tildeUpper at hlt ⊢
  rw [hmajor, hminor]
  exact hlt

theorem Range.Spans.of_between {r : Range} (h : r.Spans v w) (hvs : v ≤ s) (hsw : s ≤ w) :
    r.Spans v s ∧ r.Spans s w := by
  cases r with
  | caret => exact CaretRange.of_between h hvs hsw
  | tilde => exact TildeRange.of_between h hvs hsw

end Ranges

end LexLang.Pkg
