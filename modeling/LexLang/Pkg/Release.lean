/-
# LexLang.Pkg.Release — releases, and what a caret update may change

The version-bump gate of `POST /v1/pkg/{name}/release` (`pkg_release_handler` in
`lex-api/src/handlers.rs`) over the change of a public API (`lex-store/src/api.rs`). A release is
compared with the highest one below it, and not with what is above.
-/
import LexLang.Pkg.BestMatch

namespace LexLang.Pkg

open LexLang.Vcs (OpId)
open List Option Std.ExtTreeMap

/-! ## Public APIs -/

/-- The public API at a head: a signature for each name. -/
abbrev PublicApi := Std.ExtTreeMap String String

/-- How an API changed. -/
inductive ApiChange
  /-- A name was removed, or has another signature. -/
  | breaking (detail : String)
  | additive (detail : String)
  | none

/-- The first name that was removed or changed. -/
def firstBreak (prev new : PublicApi) : Option String :=
  prev.toList.findSome? fun (name, sig) =>
    match new[name]? with
    | none => some s!"`{name}` was removed"
    | some newSig => if newSig ≠ sig then some s!"signature of `{name}` changed" else none

/-- The first name that was added. -/
def firstAddition (prev new : PublicApi) : Option String :=
  new.keys.find? fun name => decide (name ∉ prev)

/-- **Classify the change** from one API to another. -/
def classifyApiChange (prev new : PublicApi) : ApiChange :=
  match firstBreak prev new with
  | some detail => .breaking detail
  | none =>
    match firstAddition prev new with
    | some added => .additive s!"`{added}` was added"
    | none => .none

/-- Every name is there, with the same signature. -/
def Extends (a b : PublicApi) : Prop :=
  ∀ (name sig : String), a[name]? = some sig → b[name]? = some sig

/-- There is no name that was not there. -/
def AddsNothing (a b : PublicApi) : Prop := ∀ name ∈ b, name ∈ a

def ApiChange.isBreaking : ApiChange → Bool
  | .breaking _ => true
  | _ => false

/-- The step a change needs. -/
def ApiChange.required : ApiChange → Bump
  | .breaking _ => .major
  | .additive _ => .minor
  | .none => .patch

/-- What the change is, in words. -/
def ApiChange.why : ApiChange → String
  | .breaking detail => detail
  | .additive detail => detail
  | .none => ""

/-! ## Releases -/

/-- A released version. -/
structure PkgVersionSummary where
  version : String
  headOp : Option OpId
  deriving DecidableEq

inductive ReleaseError
  | invalidVersion
  | alreadyReleased (version : String)
  | bumpTooSmall (prev version : String) (declared required : Bump) (why : String)

/-- A name that is safe as part of a path. -/
def validPkgSegment (s : String) : Bool :=
  decide (s ≠ "") && decide (s.utf8ByteSize ≤ 128) && decide (s ≠ ".") && decide (s ≠ "..") &&
    s.toList.all fun c => c.isAlphanum || c == '.' || c == '_' || c == '-'

/-- The last of the entries with the highest version. -/
def maxByVersion (entries : List (Version × PkgVersionSummary)) :
    Option (Version × PkgVersionSummary) :=
  entries.foldl (fun best entry =>
    match best with
    | none => some entry
    | some b => if b.1 ≤ entry.1 then some entry else some b) none

/-- The highest released version below a version. -/
def predecessor (index : List PkgVersionSummary) (version : String) : Option PkgVersionSummary :=
  let exact := index.filterMap fun v => (parseExact v.version).map fun p => (p, v)
  let below := exact.filter fun entry =>
    match parseExact version with
    | some n => decide (entry.1 < n)
    | none => false
  (maxByVersion below).map Prod.snd

section Gate

-- the public API at a head, where it can be read (`public_api_at_op`)
variable (api : OpId → Option PublicApi)

/-- **The gate**: the step from the version below must be what the change of the API needs. -/
def bumpGate (index : List PkgVersionSummary) (version : String) (headOp : OpId) :
    Option ReleaseError :=
  match predecessor index version with
  | none => none
  | some prev =>
    match prev.headOp, bumpBetween prev.version version with
    | some prevHead, some declared =>
      match api prevHead, api headOp with
      | some prevApi, some newApi =>
        let change := classifyApiChange prevApi newApi
        if declared.rank < change.required.rank then
          some (.bumpTooSmall prev.version version declared change.required change.why)
        else none
      | _, _ => none
    | _, _ => none

/-- A request to release a head, whose version is exact and whose API can be read. -/
structure ReleaseReq where
  version : String
  headOp : OpId
  exact : (parseExact (String.ofList (trim version.toList))).isSome
  readable : (api headOp).isSome

variable {api}

/-- The version that is released. -/
def ReleaseReq.trimmed (request : ReleaseReq api) : String :=
  String.ofList (trim request.version.toList)

/-- **Release a head under a version.** -/
def release (index : List PkgVersionSummary) (request : ReleaseReq api) :
    Except ReleaseError (List PkgVersionSummary) :=
  let version := request.trimmed
  if validPkgSegment version = false then .error .invalidVersion
  else if index.any fun v => decide (v.version = version) then .error (.alreadyReleased version)
  else
    match bumpGate api index version request.headOp with
    | some error => .error error
    | none => .ok (index ++ [⟨version, some request.headOp⟩])

/-- Releases one after another; what is refused changes nothing. -/
def releases (requests : List (ReleaseReq api)) : List PkgVersionSummary :=
  requests.foldl (fun index request =>
    match release index request with
    | .ok index => index
    | .error _ => index) []

/-- What a released version stands for: its numbers and its API. -/
def Denotes (api : OpId → Option PublicApi) (v : PkgVersionSummary) (p : Version) (a : PublicApi) :
    Prop :=
  parseExact v.version = some p ∧ ∃ head, v.headOp = some head ∧ api head = some a

/-- **Caret and tilde updates are safe**: a version `^v` allows has what `v` has, and one `~v` allows has
nothing else. -/
structure Safe (api : OpId → Option PublicApi) (index : List PkgVersionSummary) : Prop where
  caret : ∀ v ∈ index, ∀ w ∈ index, ∀ p q a b, Denotes api v p a → Denotes api w q b → p ≤ q →
    satisfies ("^" ++ v.version) w.version = true → Extends a b
  tilde : ∀ v ∈ index, ∀ w ∈ index, ∀ p q a b, Denotes api v p a → Denotes api w q b → p ≤ q →
    satisfies ("~" ++ v.version) w.version = true → AddsNothing a b

/-- **A release fits what is released right above it**: that breaks nothing of it where its caret
reaches that, and adds nothing to it where its tilde does, and the other way too where the numbers are
the same. -/
def FitsAbove (index : List PkgVersionSummary) (request : ReleaseReq api) : Prop :=
  ∀ s ∈ index, ∀ x q a b, parseExact request.trimmed = some x → api request.headOp = some a →
    Denotes api s q b → x ≤ q →
      (∀ u ∈ index, ∀ r, parseExact u.version = some r → x ≤ r → q ≤ r) →
        (satisfies ("^" ++ request.trimmed) s.version = true →
          firstBreak a b = none ∧ (q = x → firstBreak b a = none)) ∧
        (satisfies ("~" ++ request.trimmed) s.version = true →
          firstAddition a b = none ∧ (q = x → firstAddition b a = none))

/-! ## The change of an API -/

theorem firstBreak_eq_none_iff (a b : PublicApi) : firstBreak a b = none ↔ Extends a b := by
  unfold firstBreak
  rw [findSome?_eq_none_iff]
  constructor
  · intro h name sig hname
    have hentry := h (name, sig) (mem_toList_iff_getElem?_eq_some.mpr hname)
    simp only at hentry
    split at hentry
    · cases hentry
    · next newSig hnew =>
      split at hentry
      · cases hentry
      · next hsame => rw [hnew, not_not.mp hsame]
  · rintro h ⟨name, sig⟩ hmem
    have hname := h name sig (mem_toList_iff_getElem?_eq_some.mp hmem)
    simp only [hname, ne_eq, not_true_eq_false, if_false]

theorem firstAddition_eq_none_iff (a b : PublicApi) : firstAddition a b = none ↔ AddsNothing a b := by
  unfold firstAddition
  rw [find?_eq_none]
  constructor
  · intro h name hname
    have hnot := h name (Std.ExtTreeMap.mem_keys.mpr hname)
    rw [decide_eq_true_eq, not_not] at hnot
    exact hnot
  · intro h name hname
    rw [decide_eq_true_eq, not_not]
    exact h name (Std.ExtTreeMap.mem_keys.mp hname)

theorem isBreaking_eq_false_iff (a b : PublicApi) : (classifyApiChange a b).isBreaking = false ↔ Extends a b := by
  rw [← firstBreak_eq_none_iff]
  unfold classifyApiChange
  cases firstBreak a b with
  | some detail => simp [ApiChange.isBreaking]
  | none => cases firstAddition a b <;> simp [ApiChange.isBreaking]

theorem required_eq_patch_iff (a b : PublicApi) :
    (classifyApiChange a b).required = .patch ↔ Extends a b ∧ AddsNothing a b := by
  rw [← firstBreak_eq_none_iff, ← firstAddition_eq_none_iff]
  unfold classifyApiChange
  cases firstBreak a b with
  | some detail => simp [ApiChange.required]
  | none => cases firstAddition a b <;> simp [ApiChange.required]

/-- A change that needs no major step is not breaking. -/
theorem extends_of_required {a b : PublicApi} (h : (classifyApiChange a b).required ≠ .major) : Extends a b := by
  rw [← isBreaking_eq_false_iff]
  revert h
  cases classifyApiChange a b <;> simp [ApiChange.required, ApiChange.isBreaking]

theorem Extends.trans {a b c : PublicApi} (hab : Extends a b) (hbc : Extends b c) : Extends a c :=
  fun name sig h => hbc name sig (hab name sig h)

theorem AddsNothing.trans {a b c : PublicApi} (hab : AddsNothing a b) (hbc : AddsNothing b c) :
    AddsNothing a c := fun name h => hab name (hbc name h)

/-- What a range promises of the APIs of two versions in it. -/
def Range.Keeping (a b : PublicApi) : Range → Prop
  | .caret => Extends a b
  | .tilde => AddsNothing a b

theorem Range.Keeping.trans {r : Range} {a b c : PublicApi} (hab : r.Keeping a b) (hbc : r.Keeping b c) :
    r.Keeping a c := by
  cases r with
  | caret => exact Extends.trans hab hbc
  | tilde => exact AddsNothing.trans hab hbc

/-! ## What is below -/

theorem maxByVersion_eq (entries : List (Version × PkgVersionSummary)) :
    maxByVersion entries = maxByKey Prod.fst entries := by
  unfold maxByVersion maxByKey
  congr
  funext best entry
  cases best <;> rfl

/-- **The version below is the highest one below.** -/
theorem predecessor_spec {index : List PkgVersionSummary} {version : String} {x p : Version}
    {v : PkgVersionSummary} (hx : parseExact version = some x) (hv : v ∈ index)
    (hp : parseExact v.version = some p) (hlt : p < x) : ∃ prev ∈ index, ∃ r, predecessor index version = some prev ∧
      parseExact prev.version = some r ∧ r < x ∧ p ≤ r := by
  unfold predecessor
  simp only [hx, maxByVersion_eq]
  have hmem : ∀ r u, (r, u) ∈ (index.filterMap fun v => (parseExact v.version).map fun p => (p, v)) ↔
      u ∈ index ∧ parseExact u.version = some r := by
    intro r u
    simp only [mem_filterMap, map_eq_some_iff, Prod.mk.injEq]
    constructor
    · rintro ⟨u', hu', r', hr', rfl, rfl⟩
      exact ⟨hu', hr'⟩
    · rintro ⟨hu, hr⟩
      exact ⟨u, hu, r, hr, rfl, rfl⟩
  generalize (index.filterMap fun v => (parseExact v.version).map fun p => (p, v)) = exact at hmem
  obtain ⟨hnone, hsome⟩ := maxByKey_spec Prod.fst (exact.filter fun entry => decide (entry.1 < x))
  have hin : (p, v) ∈ exact.filter fun entry => decide (entry.1 < x) :=
    mem_filter.mpr ⟨(hmem p v).mpr ⟨hv, hp⟩, decide_eq_true hlt⟩
  cases hbest : maxByKey Prod.fst (exact.filter fun entry => decide (entry.1 < x)) with
  | none =>
    rw [hnone hbest] at hin
    cases hin
  | some best =>
    obtain ⟨hbin, hmax⟩ := hsome best hbest
    obtain ⟨hb, hblt⟩ := mem_filter.mp hbin
    obtain ⟨hbindex, hbparse⟩ := (hmem best.1 best.2).mp hb
    exact ⟨best.2, hbindex, best.1, rfl, hbparse, of_decide_eq_true hblt, hmax (p, v) hin⟩

section Steps

variable {index : List PkgVersionSummary} {version : String} {headOp : OpId} {x p : Version}
  {a b : PublicApi} {prev v : PkgVersionSummary}

/-- **What the gate lets through**: within a major number nothing is broken, and within a minor one
nothing is added. -/
theorem bumpGate_spec (hgate : bumpGate api index version headOp = none)
    (hprev : predecessor index version = some prev) (hdenotes : Denotes api prev p b)
    (hx : parseExact version = some x) (ha : api headOp = some a) (hlt : p < x) (hmajor : x.major = p.major) :
    Extends b a ∧ (x.minor = p.minor → AddsNothing b a) := by
  obtain ⟨hp, head, hhead, hapi⟩ := hdenotes
  have hbump : bumpBetween prev.version version =
      some (if p.minor < x.minor then .minor else .patch) := by
    unfold bumpBetween
    have hnot : ¬ x ≤ p := fun hle => hle hlt
    have hsame : ¬ p.major < x.major := by omega
    simp only [hp, hx, bind_eq_bind, bind_some, if_neg hnot, if_neg hsame]
    split <;> rfl
  unfold bumpGate at hgate
  simp only [hprev, hhead, hbump, hapi, ha] at hgate
  have hrank : ¬ (if p.minor < x.minor then Bump.minor else Bump.patch).rank <
      (classifyApiChange b a).required.rank := by
    intro h
    rw [if_pos h] at hgate
    cases hgate
  constructor
  · apply extends_of_required
    intro hrequired
    rw [hrequired] at hrank
    revert hrank
    split <;> simp [Bump.rank]
  · intro hminor
    rw [if_neg (by omega)] at hrank
    have hpatch : (classifyApiChange b a).required = .patch := by
      revert hrank
      cases (classifyApiChange b a).required <;> simp [Bump.rank]
    exact ((required_eq_patch_iff b a).mp hpatch).2

/-- Every released version is exact, and its API can be read. -/
def Kept (api : OpId → Option PublicApi) (index : List PkgVersionSummary) : Prop :=
  ∀ v ∈ index, Unspaced v.version ∧ ∃ p a, Denotes api v p a

theorem safe_iff (hkept : Kept api index) : Safe api index ↔ ∀ (r : Range), ∀ v ∈ index, ∀ w ∈ index, ∀ p q a b,
    Denotes api v p a → Denotes api w q b → p ≤ q → r.Spans p q → r.Keeping a b := by
  constructor
  · intro h r v hv w hw p q a b hvd hwd hle hspans
    have hsat := (satisfies_iff_spans (hkept v hv).1 hvd.1 hwd.1).mpr hspans
    cases r with
    | caret => exact h.caret v hv w hw p q a b hvd hwd hle hsat
    | tilde => exact h.tilde v hv w hw p q a b hvd hwd hle hsat
  · intro h
    constructor
    · intro v hv w hw p q a b hvd hwd hle hsat
      exact h .caret v hv w hw p q a b hvd hwd hle ((satisfies_iff_spans (hkept v hv).1 hvd.1 hwd.1).mp hsat)
    · intro v hv w hw p q a b hvd hwd hle hsat
      exact h .tilde v hv w hw p q a b hvd hwd hle ((satisfies_iff_spans (hkept v hv).1 hvd.1 hwd.1).mp hsat)

/-- **A release is safe with what is below it**, since the gate compares it with the highest of these,
and what is below that is safe with it. -/
theorem fits_below (hkept : Kept api index) (hsafe : Safe api index)
    (hgate : bumpGate api index version headOp = none) (hx : parseExact version = some x)
    (ha : api headOp = some a) (hv : v ∈ index) (hdenotes : Denotes api v p b) (hlt : p < x) {r : Range}
    (hspans : r.Spans p x) : r.Keeping b a := by
  obtain ⟨prev, hprev, q, hpredecessor, hq, hqx, hpq⟩ := predecessor_spec hx hv hdenotes.1 hlt
  obtain ⟨-, q', c, hprevDenotes⟩ := hkept prev hprev
  obtain rfl : q = q' := some.inj (hq.symm.trans hprevDenotes.1)
  have hgated := bumpGate_spec hgate hpredecessor hprevDenotes hx ha hqx
  obtain ⟨hbelow, habove⟩ := hspans.of_between hpq (Version.le_of_lt hqx)
  refine ((safe_iff hkept).mp hsafe r v hv prev hprev p q b c hdenotes hprevDenotes hpq hbelow).trans ?_
  cases r with
  | caret => exact (hgated (CaretRange.major_eq habove)).1
  | tilde => exact (hgated (TildeRange.minor_eq habove).1).2 (TildeRange.minor_eq habove).2

/-- Of the versions at or above one, there is a lowest. -/
theorem exists_lowest (index : List PkgVersionSummary) (x : Version)
    (h : ∃ v ∈ index, ∃ q, parseExact v.version = some q ∧ x ≤ q) :
    ∃ s ∈ index, ∃ q, parseExact s.version = some q ∧ x ≤ q ∧
      ∀ u ∈ index, ∀ r, parseExact u.version = some r → x ≤ r → q ≤ r := by
  induction index with
  | nil =>
    obtain ⟨v, hv, -⟩ := h
    cases hv
  | cons w index ih =>
    by_cases hrest : ∃ v ∈ index, ∃ q, parseExact v.version = some q ∧ x ≤ q
    · obtain ⟨s, hs, q, hq, hxq, hmin⟩ := ih hrest
      by_cases hlower : ∃ r, parseExact w.version = some r ∧ x ≤ r ∧ r < q
      · obtain ⟨r, hr, hxr, hrq⟩ := hlower
        refine ⟨w, mem_cons_self, r, hr, hxr, fun u hu t ht hxt => ?_⟩
        rcases mem_cons.mp hu with rfl | hu
        · rw [some.inj (ht.symm.trans hr)]
          exact Version.le_refl _
        · exact Version.le_trans (Version.le_of_lt hrq) (hmin u hu t ht hxt)
      · refine ⟨s, mem_cons_of_mem w hs, q, hq, hxq, fun u hu t ht hxt => ?_⟩
        rcases mem_cons.mp hu with rfl | hu
        · exact Version.le_of_not_lt fun hlt => hlower ⟨t, ht, hxt, hlt⟩
        · exact hmin u hu t ht hxt
    · obtain ⟨v, hv, q, hq, hxq⟩ := h
      rcases mem_cons.mp hv with rfl | hv
      · refine ⟨v, mem_cons_self, q, hq, hxq, fun u hu t ht hxt => ?_⟩
        rcases mem_cons.mp hu with rfl | hu
        · rw [some.inj (ht.symm.trans hq)]
          exact Version.le_refl _
        · exact absurd ⟨u, hu, t, ht, hxt⟩ hrest
      · exact absurd ⟨v, hv, q, hq, hxq⟩ hrest

variable {request : ReleaseReq api}

theorem fitsAbove_iff (hx : parseExact request.trimmed = some x) (hspace : Unspaced request.trimmed)
    (ha : api request.headOp = some a) : FitsAbove index request ↔ ∀ (r : Range), ∀ s ∈ index, ∀ q b,
      Denotes api s q b → x ≤ q → (∀ u ∈ index, ∀ r, parseExact u.version = some r → x ≤ r → q ≤ r) →
        r.Spans x q → r.Keeping a b ∧ (q = x → r.Keeping b a) := by
  constructor
  · intro h r s hs q b hdenotes hle hmin hspans
    have hsat := (satisfies_iff_spans hspace hx hdenotes.1).mpr hspans
    obtain ⟨hbreaks, hadds⟩ := h s hs x q a b hx ha hdenotes hle hmin
    simp only [firstBreak_eq_none_iff, firstAddition_eq_none_iff] at hbreaks hadds
    cases r with
    | caret => exact hbreaks hsat
    | tilde => exact hadds hsat
  · intro h s hs x' q a' b hx' ha' hdenotes hle hmin
    obtain rfl := some.inj (hx.symm.trans hx')
    obtain rfl := some.inj (ha.symm.trans ha')
    simp only [firstBreak_eq_none_iff, firstAddition_eq_none_iff]
    exact ⟨fun hsat => h .caret s hs q b hdenotes hle hmin ((satisfies_iff_spans hspace hx hdenotes.1).mp hsat),
      fun hsat => h .tilde s hs q b hdenotes hle hmin ((satisfies_iff_spans hspace hx hdenotes.1).mp hsat)⟩

/-- What fits right above fits all that is above, as that is safe. -/
theorem FitsAbove.fits (hkept : Kept api index) (hsafe : Safe api index)
    (hfits : FitsAbove index request) (hx : parseExact request.trimmed = some x)
    (hspace : Unspaced request.trimmed) (ha : api request.headOp = some a) (hv : v ∈ index)
    (hdenotes : Denotes api v p b) (hle : x ≤ p) {r : Range} (hspans : r.Spans x p) : r.Keeping a b := by
  obtain ⟨s, hs, q, hq, hxq, hmin⟩ := exists_lowest index x ⟨v, hv, p, hdenotes.1, hle⟩
  obtain ⟨-, q', c, hsdenotes⟩ := hkept s hs
  obtain rfl : q = q' := some.inj (hq.symm.trans hsdenotes.1)
  have hqp := hmin v hv p hdenotes.1 hle
  obtain ⟨hreached, hfrom⟩ := hspans.of_between hxq hqp
  exact ((fitsAbove_iff hx hspace ha).mp hfits r s hs q c hsdenotes hxq hmin hreached).1.trans
    ((safe_iff hkept).mp hsafe r s hs v hv q p c b hsdenotes hdenotes hqp hfrom)

theorem isWhitespace_eq_false_of_valid {c : Char}
    (h : (c.isAlphanum || c == '.' || c == '_' || c == '-') = true) : isWhitespace c = false := by
  have hrange : 45 ≤ c.toNat ∧ c.toNat ≤ 122 := by
    simp only [Char.isAlphanum, Bool.or_eq_true, beq_iff_eq] at h
    rcases h with (((h | h) | h) | h) | h
    · rcases Bool.or_eq_true_iff.mp h with h | h
      · have h : 65 ≤ c.toNat ∧ c.toNat ≤ 90 := of_decide_eq_true h
        omega
      · have h : 97 ≤ c.toNat ∧ c.toNat ≤ 122 :=
          (Bool.and_eq_true_iff.mp h).imp of_decide_eq_true of_decide_eq_true
        omega
    · have h : 48 ≤ c.toNat ∧ c.toNat ≤ 57 :=
        (Bool.and_eq_true_iff.mp h).imp of_decide_eq_true of_decide_eq_true
      omega
    all_goals
      subst h
      decide
  unfold isWhitespace
  simp only [Bool.or_eq_false_iff, Bool.and_eq_false_iff, decide_eq_false_iff_not, beq_eq_false_iff_ne]
  omega

theorem unspaced_of_valid {s : String} (h : validPkgSegment s = true) : Unspaced s := by
  intro c hc
  unfold validPkgSegment at h
  simp only [Bool.and_eq_true] at h
  exact isWhitespace_eq_false_of_valid (List.all_eq_true.mp h.2 c hc)

variable {index' : List PkgVersionSummary}

theorem release_eq_ok (h : release index request = .ok index') : validPkgSegment request.trimmed = true ∧
      bumpGate api index request.trimmed request.headOp = none ∧
        index' = index ++ [⟨request.trimmed, some request.headOp⟩] := by
  unfold release at h
  simp only at h
  split at h
  · cases h
  · next hvalid =>
    split at h
    · cases h
    · split at h
      · cases h
      · next hgate =>
        cases h
        exact ⟨by simpa using hvalid, hgate, rfl⟩

/-- What a request releases. -/
theorem ReleaseReq.denotes (request : ReleaseReq api) :
    ∃ x a, parseExact request.trimmed = some x ∧ api request.headOp = some a ∧
      Denotes api ⟨request.trimmed, some request.headOp⟩ x a := by
  obtain ⟨x, hx⟩ := isSome_iff_exists.mp request.exact
  obtain ⟨a, ha⟩ := isSome_iff_exists.mp request.readable
  exact ⟨x, a, hx, ha, hx, request.headOp, rfl, ha⟩

theorem Denotes.unique {p' : Version} {b' : PublicApi} (h : Denotes api v p b)
    (h' : Denotes api v p' b') : p = p' ∧ b = b' := by
  obtain ⟨hp, head, hhead, hapi⟩ := h
  obtain ⟨hp', head', hhead', hapi'⟩ := h'
  obtain rfl := some.inj (hhead.symm.trans hhead')
  exact ⟨some.inj (hp.symm.trans hp'), some.inj (hapi.symm.trans hapi')⟩

theorem Kept.release (hkept : Kept api index) (h : release index request = .ok index') : Kept api index' := by
  obtain ⟨hvalid, -, rfl⟩ := release_eq_ok h
  intro v hv
  rcases mem_append.mp hv with hv | hv
  · exact hkept v hv
  · rw [mem_singleton.mp hv]
    obtain ⟨x, a, -, -, hdenotes⟩ := request.denotes
    exact ⟨unspaced_of_valid hvalid, x, a, hdenotes⟩

/-- **A release keeps updates safe exactly where it fits what is right above it.** -/
theorem safe_release_iff (hkept : Kept api index) (hsafe : Safe api index) (h : release index request = .ok index') :
    Safe api index' ↔ FitsAbove index request := by
  have hkept' := hkept.release h
  obtain ⟨hvalid, hgate, rfl⟩ := release_eq_ok h
  obtain ⟨x, a, hx, ha, hnew⟩ := request.denotes
  have hspace := unspaced_of_valid hvalid
  rw [safe_iff hkept', fitsAbove_iff hx hspace ha]
  have habove := (show FitsAbove index request ↔ _ from fitsAbove_iff hx hspace ha).mpr
  constructor
  · intro hafter r s hs q b hdenotes hle hmin hspans
    have hsin := mem_append_left [⟨request.trimmed, some request.headOp⟩] hs
    have hnewin := mem_append_right index
      (mem_singleton.mpr (Eq.refl (PkgVersionSummary.mk request.trimmed (some request.headOp))))
    refine ⟨hafter r _ hnewin s hsin x q a b hnew hdenotes hle hspans, ?_⟩
    rintro rfl
    exact hafter r s hsin _ hnewin q q b a hdenotes hnew hle hspans
  · intro hfits r v hv w hw p q b c hvd hwd hle hspans
    rcases mem_append.mp hv with hv | hv
    · rcases mem_append.mp hw with hw | hw
      · exact (safe_iff hkept).mp hsafe r v hv w hw p q b c hvd hwd hle hspans
      · obtain rfl := mem_singleton.mp hw
        obtain ⟨rfl, rfl⟩ := hnew.unique hwd
        -- a version below or at the release, and the release
        by_cases hlt : p < x
        · exact fits_below hkept hsafe hgate hx ha hv hvd hlt hspans
        · obtain rfl := Version.eq_of_le_of_le hle hlt
          exact (hfits r v hv p b hvd (Version.le_refl p) (fun u _ r _ hle => hle) hspans).2 rfl
    · obtain rfl := mem_singleton.mp hv
      obtain ⟨rfl, rfl⟩ := hnew.unique hvd
      rcases mem_append.mp hw with hw | hw
      · exact (habove hfits).fits hkept hsafe hx hspace ha hw hwd hle hspans
      · obtain rfl := mem_singleton.mp hw
        obtain ⟨-, rfl⟩ := hnew.unique hwd
        cases r with
        | caret => exact fun _ _ hsig => hsig
        | tilde => exact fun _ hname => hname

end Steps

/-! ## Whole sequences -/

theorem releases_append_singleton (requests : List (ReleaseReq api)) (request : ReleaseReq api) :
    releases (requests ++ [request]) =
      match release (releases requests) request with
      | .ok index => index
      | .error _ => releases requests := by
  unfold releases
  rw [foldl_append]
  rfl

theorem kept_releases (requests : List (ReleaseReq api)) : Kept api (releases requests) := by
  induction requests using reverseRecOn with
  | nil => exact fun v hv => absurd hv not_mem_nil
  | append_singleton requests request ih =>
    rw [releases_append_singleton]
    split
    · next hrelease => exact ih.release hrelease
    · exact ih

/-- **Caret and tilde updates are safe after every release of a sequence exactly where each release that
is accepted fits what is released right above it.** -/
theorem carets_safe_iff (requests : List (ReleaseReq api)) :
    (∀ before after, requests = before ++ after → Safe api (releases before)) ↔
      ∀ before request after index, requests = before ++ request :: after →
        release (releases before) request = .ok index → FitsAbove (releases before) request := by
  constructor
  · intro hsafe before request after index heq hrelease
    have hafter := hsafe (before ++ [request]) after (by rw [heq, append_assoc]; rfl)
    rw [releases_append_singleton, hrelease] at hafter
    exact (safe_release_iff (kept_releases before) (hsafe before _ heq) hrelease).mp hafter
  · intro hfits before
    induction before using reverseRecOn with
    | nil =>
      intro after _
      exact ⟨fun v hv => absurd hv not_mem_nil, fun v hv => absurd hv not_mem_nil⟩
    | append_singleton before request ih =>
      intro after heq
      rw [append_assoc] at heq
      have hbefore := ih _ heq
      rw [releases_append_singleton]
      split
      · next index hrelease =>
        exact (safe_release_iff (kept_releases before) hbefore hrelease).mpr
          (hfits before request after index heq hrelease)
      · exact hbefore

end Gate

/-! ## A version between two -/

/-- A head with one function, or with two. -/
def oneOrTwo (headOp : OpId) : Option PublicApi :=
  if headOp = "two" then some (((∅ : PublicApi).insert "m.f" "fn:A").insert "m.g" "fn:B")
  else some ((∅ : PublicApi).insert "m.f" "fn:A")

/-- `1.0.0` and `1.2.0` with one function, and then `1.1.0` with two. -/
def between : List (ReleaseReq oneOrTwo) :=
  [⟨"1.0.0", "one", by decide +kernel, by decide +kernel⟩,
    ⟨"1.2.0", "one", by decide +kernel, by decide +kernel⟩,
    ⟨"1.1.0", "two", by decide +kernel, by decide +kernel⟩]

/-- **All three are accepted, and the caret of `1.1.0` allows `1.2.0`, which lacks its second
function.** -/
theorem between_is_unsafe : ¬ Safe oneOrTwo (releases between) := by
  have hreleased : releases between = [⟨"1.0.0", some "one"⟩, ⟨"1.2.0", some "one"⟩,
      ⟨"1.1.0", some "two"⟩] := by
    decide +kernel
  rw [hreleased]
  intro hsafe
  have hextends := hsafe.caret ⟨"1.1.0", some "two"⟩ (by simp) ⟨"1.2.0", some "one"⟩ (by simp)
    ⟨1, 1, 0⟩ ⟨1, 2, 0⟩ _ _ ⟨by decide +kernel, "two", rfl, rfl⟩ ⟨by decide +kernel, "one", rfl, rfl⟩
    (by decide) (by decide +kernel) "m.g" "fn:B"
  revert hextends
  simp

end LexLang.Pkg
