/-
# LexLang.Types.Trust — what a grant permits, and the hosts of an allowlist

`lex-types/src/trust.rs`, and the evidence of `authority.rs` that a derived grant is tight. A host is the list of its
characters. A wildcard's suffix is cut off the host at a byte, and inside of a character that is a panic.
-/
import LexLang.Runtime.NetHost
import LexLang.Types.AuthorityDiff

namespace LexLang.Types

open LexLang.Runtime (Text SameHost splitOnce strip strip_eq_some)
open List Option

/-! ## Grants -/

def Level.leq (self other : Level) : Bool := self.rank ≤ other.rank

namespace Grant

def leq (self other : Grant) : Bool := Dimension.all.all fun dim => (self.level dim).leq (other.level dim)

/-- A child may only narrow its parent. -/
def narrow (parent child : Grant) : Except TrustError Grant :=
  match Dimension.all.find? fun dim => !(child.level dim).leq (parent.level dim) with
  | some dim => .error (.widens dim (parent.level dim) (child.level dim))
  | none => .ok child

def permitsEffect (grant : Grant) (e : EffectKind) : Bool :=
  match effectRequirement e.name with
  | some (dim, required) => required.leq (grant.level dim)
  | none => true

def permitOne (grant : Grant) (e : EffectKind) : Except TrustError Unit :=
  match effectRequirement e.name with
  | some (dim, required) =>
    if required.leq (grant.level dim) then .ok ()
    else .error (.effectNotPermitted e.pretty dim required (grant.level dim))
  | none => .ok ()

def permitsEffects (grant : Grant) (effects : List EffectKind) : Except TrustError Unit :=
  effects.forM grant.permitOne

def setLevel (grant : Grant) : Dimension → Level → Grant
  | .filesystem, level => { grant with filesystem := level }
  | .network, level => { grant with network := level }
  | .exec, level => { grant with exec := level }

end Grant

def nextLevelDown (dim : Dimension) (level : Level) : Option Level := do
  let idx ← dim.levels.findIdx? (·.rank = level.rank)
  if idx = 0 then none else dim.levels[idx - 1]?

structure MinimalityWitness where
  dimension : Dimension
  level : Level
  loweredTo : Level
  rejectedEffect : String

/-- What the next level down would reject, for each dimension. -/
def Authority.minimalityWitness (a : Authority) (effects : List EffectKind) : List MinimalityWitness :=
  Dimension.all.filterMap fun dim =>
    match nextLevelDown dim (a.grant.level dim) with
    | none => none
    | some loweredTo =>
      match (a.grant.setLevel dim loweredTo).permitsEffects effects with
      | .error (.effectNotPermitted effect ..) => some ⟨dim, a.grant.level dim, loweredTo, effect⟩
      | _ => none

/-! ## Hosts -/

def byteLen (t : Text) : Nat := (t.map Char.utf8Size).sum

/-- The text up to a byte and behind it. There is none inside of a character. -/
def splitAtByte : Nat → Text → Option (Text × Text)
  | 0, t => some ([], t)
  | _ + 1, [] => none
  | n + 1, c :: t =>
    if c.utf8Size ≤ n + 1 then (splitAtByte (n + 1 - c.utf8Size) t).map fun (front, back) => (c :: front, back)
    else none

/-- The port of an entry does not count. -/
def entryHost (entry : Text) : Text := ((splitOnce ':' entry).map Prod.fst).getD entry

/-- `host_matches`. There is no answer where it panics. -/
def hostMatches (entry host : Text) : Option Bool :=
  match strip "*.".toList (entryHost entry) with
  | some suffix =>
    if SameHost host suffix then some true
    else if byteLen suffix + 1 < byteLen host then do
      let (front, back) ← splitAtByte (byteLen host - byteLen suffix) host
      some (SameHost back suffix && front.getLast? = some '.')
    else some false
  | none => some (SameHost (entryHost entry) host)

def hostInAllowlist (host : Text) : List String → Option Bool
  | [] => some false
  | entry :: rest => do if ← hostMatches entry.toList host then some true else hostInAllowlist host rest

/-- How a check ends that does not pass. -/
inductive Refusal
  | trust (error : TrustError)
  | panicked

abbrev netEffectHost := scopeArg

namespace Grant

def permitOneWithAllowlist (grant : Grant) (allowlist : List String) (e : EffectKind) : Except Refusal Unit :=
  if isNetEffect e.name then
    if grant.network = .full then .ok ()
    else
      match netEffectHost e with
      | some host =>
        match hostInAllowlist host.toList allowlist with
        | some true => .ok ()
        | some false => .error (.trust (.netHostNotAllowed host allowlist.length))
        | none => .error .panicked
      | none => .error (.trust .netUnscoped)
  else (grant.permitOne e).mapError .trust

def permitsEffectsWithAllowlist (grant : Grant) (effects : List EffectKind) (allowlist : List String) :
    Except Refusal Unit := effects.forM (grant.permitOneWithAllowlist allowlist)

end Grant

/-! ## What an entry stands for -/

/-- A label or several in front of the domain. -/
def Subdomain (domain host : Text) : Prop := ∃ sub, sub ≠ [] ∧ SameHost host (sub ++ '.' :: domain)

/-- **The host is the entry's, or for a wildcard its suffix or below it.** -/
def Accepts (entry host : Text) : Prop :=
  match strip "*.".toList (entryHost entry) with
  | some suffix => SameHost host suffix ∨ Subdomain suffix host
  | none => SameHost (entryHost entry) host

/-- The entry is a wildcard, and as many bytes as its suffix has are not whole characters at the end of the host,
which is longer and not the suffix. -/
def Cuts (entry host : Text) : Prop :=
  ∃ suffix, strip "*.".toList (entryHost entry) = some suffix ∧ ¬ SameHost host suffix ∧
    byteLen suffix + 1 < byteLen host ∧ ∀ front back, host = front ++ back → byteLen back ≠ byteLen suffix

/-- An entry cuts the host, and none before it accepts the host. -/
def Stops (host : Text) : List String → Prop
  | [] => False
  | entry :: rest => Cuts entry.toList host ∨ (¬ Accepts entry.toList host ∧ Stops host rest)

section Hosts

variable {t host suffix entry front back : Text} {n : Nat} {c : Char}

theorem byteLen_append (a b : Text) : byteLen (a ++ b) = byteLen a + byteLen b := by simp [byteLen]

theorem byteLen_cons (c : Char) (t : Text) : byteLen (c :: t) = c.utf8Size + byteLen t := by simp [byteLen]

theorem splitAtByte_eq_some :
    splitAtByte n t = some (front, back) ↔ t = front ++ back ∧ byteLen front = n := by
  induction t generalizing n front with
  | nil =>
    cases n with
    | zero =>
      simp only [splitAtByte, some.injEq, Prod.mk.injEq, nil_eq_append_iff, and_assoc]
      refine ⟨?_, fun h => ⟨h.1.symm, h.2.1.symm⟩⟩
      rintro ⟨rfl, rfl⟩
      exact ⟨rfl, rfl, rfl⟩
    | succ n =>
      refine iff_of_false (by simp [splitAtByte]) ?_
      rintro ⟨heq, hlen⟩
      rw [(append_eq_nil_iff.mp heq.symm).1] at hlen
      cases hlen
  | cons c t ih =>
    have hpos := c.utf8Size_pos
    cases n with
    | zero =>
      constructor
      · rintro ⟨⟩
        exact ⟨rfl, rfl⟩
      · rintro ⟨heq, hlen⟩
        cases front with
        | nil => rw [splitAtByte, heq]; rfl
        | cons d front =>
          rw [byteLen_cons] at hlen
          have := d.utf8Size_pos
          omega
    | succ n =>
      unfold splitAtByte
      constructor
      · intro h
        split at h
        · obtain ⟨⟨front', back'⟩, hsplit, hpair⟩ := map_eq_some_iff.mp h
          obtain ⟨rfl, rfl⟩ := Prod.mk.inj hpair
          obtain ⟨rfl, hlen⟩ := ih.mp hsplit
          refine ⟨rfl, ?_⟩
          rw [byteLen_cons]
          omega
        · cases h
      · rintro ⟨heq, hlen⟩
        cases front with
        | nil => cases hlen
        | cons d front =>
          obtain ⟨rfl, rfl⟩ := List.cons.inj heq
          rw [byteLen_cons] at hlen
          rw [if_pos (by omega), ih.mpr ⟨rfl, by omega⟩]
          rfl

theorem utf8Size_toLower (c : Char) : c.toLower.utf8Size = c.utf8Size := by
  unfold Char.toLower
  split
  · next h =>
    have hascii : c.val ≤ 'Z'.val := h.2
    simp only [Char.utf8Size]
    grind
  · rfl

theorem toLower_eq_dot (h : c.toLower = '.') : c = '.' := by
  unfold Char.toLower at h
  split at h
  · next hrange =>
    have hlow : 'A'.val ≤ c.val := hrange.1
    have hval := congrArg Char.val h
    grind
  · exact h

theorem SameHost.byteLen_eq {a b : Text} (h : SameHost a b) : byteLen a = byteLen b := by
  have hlower : ∀ t : Text, byteLen (t.map Char.toLower) = byteLen t := fun t => by
    simp [byteLen, Function.comp_def, utf8Size_toLower]
  rw [← hlower a, h, hlower b]

theorem subdomain_iff : Subdomain suffix host ↔
    ∃ front back, host = front ++ back ∧ SameHost back suffix ∧ front.getLast? = some '.' ∧ 2 ≤ byteLen front := by
  constructor
  · rintro ⟨sub, hne, hsame⟩
    have hsame : host.map Char.toLower = (sub ++ ['.']).map Char.toLower ++ suffix.map Char.toLower := by
      rw [hsame, ← map_append, append_assoc]
      rfl
    obtain ⟨front, back, rfl, hfront, hback⟩ := map_eq_append_iff.mp hsame
    have hlen : byteLen front = byteLen sub + 1 := by
      rw [SameHost.byteLen_eq hfront, byteLen_append]
      rfl
    rw [map_append] at hfront
    obtain ⟨sub', dot, rfl, -, hdot⟩ := map_eq_append_iff.mp hfront
    obtain ⟨c, rfl, hc⟩ := map_eq_singleton_iff.mp hdot
    obtain rfl := toLower_eq_dot hc
    refine ⟨_, back, rfl, hback, by simp, ?_⟩
    obtain ⟨d, sub, rfl⟩ := exists_cons_of_ne_nil hne
    rw [byteLen_cons] at hlen
    have := d.utf8Size_pos
    omega
  · rintro ⟨front, back, rfl, hback, hdot, hlen⟩
    obtain ⟨sub, rfl⟩ := getLast?_eq_some_iff.mp hdot
    refine ⟨sub, ?_, ?_⟩
    · rintro rfl
      exact absurd hlen (by decide)
    · unfold SameHost at hback ⊢
      simp [hback]

/-- **A match panics where the entry cuts the host, and elsewhere tells whether the entry accepts it.** -/
theorem hostMatches_spec (entry host : Text) :
    (hostMatches entry host = none ↔ Cuts entry host) ∧ (hostMatches entry host = some true ↔ Accepts entry host) := by
  unfold hostMatches Cuts Accepts
  cases strip "*.".toList (entryHost entry) with
  | none => simp
  | some suffix =>
    by_cases hsame : SameHost host suffix
    · simp [hsame]
    · by_cases hlong : byteLen suffix + 1 < byteLen host
      · simp only [some.injEq, exists_eq_left', hsame, hlong, not_false_eq_true,
          true_and, false_or, subdomain_iff]
        cases hsplit : splitAtByte (byteLen host - byteLen suffix) host with
        | none =>
          have hno : ∀ front back, host = front ++ back → byteLen back ≠ byteLen suffix := by
            rintro front back rfl hlen
            rw [byteLen_append, hlen, Nat.add_sub_cancel] at hsplit
            exact nomatch hsplit.symm.trans (splitAtByte_eq_some.mpr ⟨rfl, rfl⟩)
          refine ⟨iff_of_true rfl hno, iff_of_false nofun ?_⟩
          rintro ⟨front, back, heq, hback, -⟩
          exact hno front back heq (SameHost.byteLen_eq hback)
        | some parts =>
          obtain ⟨front, back⟩ := parts
          obtain ⟨rfl, hfront⟩ := splitAtByte_eq_some.mp hsplit
          rw [byteLen_append] at hfront hlong
          refine ⟨iff_of_false nofun fun hno => hno front back rfl (by omega), ?_⟩
          have hanswer : (some (SameHost back suffix && front.getLast? = some '.') : Option Bool) = some true ↔
              SameHost back suffix ∧ front.getLast? = some '.' := by simp
          refine hanswer.trans ⟨fun h => ⟨front, back, rfl, h.1, h.2, by omega⟩, ?_⟩
          rintro ⟨front', back', heq, hback, hdot, -⟩
          have hsplit' : splitAtByte (byteLen front) (front ++ back) = some (front', back') := by
            refine splitAtByte_eq_some.mpr ⟨heq, ?_⟩
            have hlen := congrArg byteLen heq
            rw [byteLen_append, byteLen_append, SameHost.byteLen_eq hback] at hlen
            omega
          obtain ⟨rfl, rfl⟩ := Prod.mk.inj
            (some.inj (hsplit'.symm.trans (splitAtByte_eq_some.mpr ⟨rfl, rfl⟩)))
          exact ⟨hback, hdot⟩
      · simp only [some.injEq, exists_eq_left', hsame, hlong, false_and, and_false,
          false_or, subdomain_iff]
        refine ⟨by simp, iff_of_false (by simp) ?_⟩
        rintro ⟨front, back, rfl, hback, -, hlen⟩
        rw [byteLen_append, SameHost.byteLen_eq hback] at hlong
        omega

section Allowlists

variable {allowlist narrower : List String}

theorem hostInAllowlist_eq_none : hostInAllowlist host allowlist = none ↔ Stops host allowlist := by
  induction allowlist with
  | nil => simp [hostInAllowlist, Stops]
  | cons entry rest ih =>
    obtain ⟨hcuts, haccepts⟩ := hostMatches_spec entry.toList host
    unfold hostInAllowlist Stops
    rw [← ih, ← hcuts, ← haccepts]
    rcases hostMatches entry.toList host with _ | _ | _ <;> simp

theorem hostInAllowlist_eq_some {b : Bool} (h : hostInAllowlist host allowlist = some b) :
    b = true ↔ ∃ entry ∈ allowlist, Accepts entry.toList host := by
  induction allowlist with
  | nil =>
    obtain rfl := some.inj h
    simp
  | cons entry rest ih =>
    obtain ⟨-, haccepts⟩ := hostMatches_spec entry.toList host
    unfold hostInAllowlist at h
    simp only [mem_cons, exists_eq_or_imp, ← haccepts]
    rcases hmatch : hostMatches entry.toList host with _ | _ | _
    · rw [hmatch] at h
      cases h
    · rw [hmatch] at h
      rw [ih h]
      simp
    · rw [hmatch] at h
      obtain rfl := some.inj h
      simp

theorem hostInAllowlist_mono (hsub : ∀ entry ∈ narrower, entry ∈ allowlist)
    (h : hostInAllowlist host narrower = some true) : hostInAllowlist host allowlist = some true ↔ ¬ Stops host allowlist := by
  rw [← hostInAllowlist_eq_none]
  obtain ⟨entry, hmem, haccepts⟩ := (hostInAllowlist_eq_some h).mp rfl
  cases hsearch : hostInAllowlist host allowlist with
  | none => simp
  | some b =>
    obtain rfl := (hostInAllowlist_eq_some hsearch).mpr ⟨entry, hsub entry hmem, haccepts⟩
    simp

end Allowlists

/-- **A match does not panic, and accepts what the entry stands for.** -/
def MatchesHost (entry host : Text) : Prop := ∃ b, hostMatches entry host = some b ∧ (b = true ↔ Accepts entry host)

theorem matchesHost_iff : MatchesHost entry host ↔ ¬ Cuts entry host := by
  obtain ⟨hcuts, haccepts⟩ := hostMatches_spec entry host
  unfold MatchesHost
  rw [← hcuts, ← haccepts]
  rcases hostMatches entry host with _ | _ | _ <;> simp

end Hosts

/-! ## The derived grant -/

section Derived

variable {effects : List EffectKind} {e : EffectKind} {grant other : Grant} {dim : Dimension} {level : Level}

theorem forM_ok {ε : Type} {f : EffectKind → Except ε Unit} : effects.forM f = .ok () ↔ ∀ e ∈ effects, f e = .ok () := by
  induction effects with
  | nil => exact iff_of_true rfl nofun
  | cons e effects ih =>
    rw [forall_mem_cons, ← ih]
    show (f e >>= fun _ => effects.forM f) = _ ↔ _
    cases f e with
    | error error => exact iff_of_false nofun fun h => nomatch h.1
    | ok => exact (and_iff_right rfl).symm

theorem permitOne_ok : grant.permitOne e = .ok () ↔ grant.permitsEffect e = true := by
  unfold Grant.permitOne Grant.permitsEffect
  cases effectRequirement e.name with
  | none => simp
  | some need =>
    dsimp only
    split <;> simp [*]

theorem permitsEffects_ok : grant.permitsEffects effects = .ok () ↔ ∀ e ∈ effects, grant.permitsEffect e = true := by
  unfold Grant.permitsEffects
  simp only [forM_ok, permitOne_ok]

theorem permitsEffects_error {error : TrustError} (h : grant.permitsEffects effects = .error error) :
    ∃ e ∈ effects, grant.permitsEffect e = false ∧
      ∃ dim required granted, error = .effectNotPermitted e.pretty dim required granted := by
  induction effects with
  | nil => exact nomatch h
  | cons e effects ih =>
    change (grant.permitOne e >>= fun _ => grant.permitsEffects effects) = _ at h
    cases hone : grant.permitOne e with
    | ok =>
      rw [hone] at h
      obtain ⟨e', he', hrest⟩ := ih h
      exact ⟨e', mem_cons_of_mem _ he', hrest⟩
    | error error' =>
      rw [hone] at h
      obtain rfl := Except.error.inj h
      refine ⟨e, mem_cons_self, ?_, ?_⟩
      · rw [← Bool.not_eq_true, ← permitOne_ok, hone]
        exact nofun
      · unfold Grant.permitOne at hone
        split at hone
        · split at hone
          · exact nomatch hone
          · exact ⟨_, _, _, (Except.error.inj hone).symm⟩
        · exact nomatch hone

theorem leq_iff : grant.leq other = true ↔ ∀ dim, (grant.level dim).rank ≤ (other.level dim).rank := by
  unfold Grant.leq Level.leq
  rw [List.all_eq_true]
  simp only [decide_eq_true_eq]
  exact ⟨fun h dim => h dim (by cases dim <;> decide), fun h dim _ => h dim⟩

/-- **A grant permits the effects just when it is at or above the derived one.** -/
theorem permits_iff : grant.permitsEffects effects = .ok () ↔ (tally effects).grant.leq grant = true := by
  rw [permitsEffects_ok, leq_iff]
  constructor
  · intro h dim
    by_contra hlt
    obtain ⟨e, he, level, hreq, hle⟩ := (level_tally (by omega)).mp (le_refl ((tally effects).grant.level dim).rank)
    have hpermits := h e he
    unfold Grant.permitsEffect Level.leq at hpermits
    rw [hreq] at hpermits
    have := of_decide_eq_true hpermits
    omega
  · intro h e he
    unfold Grant.permitsEffect Level.leq
    cases hreq : effectRequirement e.name with
    | none => rfl
    | some need =>
      obtain ⟨dim, level⟩ := need
      have hderived := (level_tally (requirement_pos hreq)).mpr ⟨e, he, level, hreq, le_rfl⟩
      exact decide_eq_true (hderived.trans (h dim))

theorem level_setLevel : (grant.setLevel dim level).level dim = level := by cases dim <;> rfl

theorem nextLevelDown_none (h : dim.permitsLevel level = true) : nextLevelDown dim level = none ↔ level = .none := by
  cases dim <;> cases level <;> revert h <;> decide

theorem nextLevelDown_lt {lower : Level} (h : nextLevelDown dim level = some lower) : lower.rank < level.rank := by
  cases dim <;> cases level <;> cases lower <;> revert h <;> decide

/-- **The evidence is complete**: it is about each dimension that is not at its bottom, and names an effect that is
rejected one level further down. -/
def Tight (a : Authority) (effects : List EffectKind) : Prop :=
  (a.minimalityWitness effects).map MinimalityWitness.dimension = Dimension.all.filter (a.grant.level · ≠ .none) ∧
    ∀ w ∈ a.minimalityWitness effects, w.level = a.grant.level w.dimension ∧
      nextLevelDown w.dimension w.level = some w.loweredTo ∧
      ∃ e ∈ effects, w.rejectedEffect = e.pretty ∧ (a.grant.setLevel w.dimension w.loweredTo).permitsEffect e = false

theorem tight_tally (effects : List EffectKind) : Tight (tally effects) effects := by
  have hrejects : ∀ dim lower, nextLevelDown dim ((tally effects).grant.level dim) = some lower →
      ∃ e ∈ effects, ((tally effects).grant.setLevel dim lower).permitsEffect e = false ∧ ∃ d required granted,
        ((tally effects).grant.setLevel dim lower).permitsEffects effects =
          .error (.effectNotPermitted e.pretty d required granted) := by
    intro dim lower hlower
    cases hprobe : ((tally effects).grant.setLevel dim lower).permitsEffects effects with
    | ok =>
      have hle := leq_iff.mp (permits_iff.mp hprobe) dim
      rw [level_setLevel] at hle
      have := nextLevelDown_lt hlower
      omega
    | error error =>
      obtain ⟨e, he, hno, d, required, granted, rfl⟩ := permitsEffects_error hprobe
      exact ⟨e, he, hno, d, required, granted, rfl⟩
  unfold Tight Authority.minimalityWitness
  constructor
  · rw [map_filterMap, ← filterMap_eq_filter]
    congr 1
    funext dim
    have hnone := nextLevelDown_none (permitsLevel_tally effects dim)
    cases hlower : nextLevelDown dim ((tally effects).grant.level dim) with
    | none => simp [Option.guard, hnone.mp hlower]
    | some lower =>
      obtain ⟨e, -, -, d, required, granted, herror⟩ := hrejects dim lower hlower
      have hlevel : (tally effects).grant.level dim ≠ .none := fun h => nomatch hlower.symm.trans (hnone.mpr h)
      simp [Option.guard, hlevel, herror]
  · intro w hw
    obtain ⟨dim, -, hsome⟩ := mem_filterMap.mp hw
    cases hlower : nextLevelDown dim ((tally effects).grant.level dim) with
    | none =>
      rw [hlower] at hsome
      exact nomatch hsome
    | some lower =>
      obtain ⟨e, he, hno, d, required, granted, herror⟩ := hrejects dim lower hlower
      simp only [hlower, herror, some.injEq] at hsome
      obtain rfl := hsome
      exact ⟨rfl, hlower, e, he, rfl, hno⟩

/-- **The derived grant permits the effects, is below every grant that does, and there is evidence that it is.** -/
def LeastFor (effects : List EffectKind) : Prop :=
  ∃ a, deriveFromEffects effects = .ok a ∧ a.grant.permitsEffects effects = .ok () ∧
    (∀ grant : Grant, grant.permitsEffects effects = .ok () → a.grant.leq grant = true) ∧ Tight a effects

theorem leastFor (effects : List EffectKind) : LeastFor effects :=
  ⟨tally effects, deriveFromEffects_eq effects, permits_iff.mpr (leq_iff.mpr fun _ => le_rfl),
    fun _ => permits_iff.mp, tight_tally effects⟩

end Derived

/-! ## Narrowing -/

section Narrowing

variable {effects declared reached : List EffectKind} {e : EffectKind} {parent child : Grant}
variable {allowlist narrower : List String} {entry host : Text}

theorem narrow_ok (h : Grant.narrow parent child = .ok child) : child.leq parent = true := by
  unfold Grant.narrow at h
  split at h
  · exact nomatch h
  · next hfind =>
    rw [find?_eq_none] at hfind
    exact List.all_eq_true.mpr fun dim hdim => by simpa using hfind dim hdim

theorem permits_narrowed (hnarrow : Grant.narrow parent child = .ok child)
    (h : child.permitsEffects declared = .ok ()) : parent.permitsEffects declared = .ok () := by
  have hle := leq_iff.mp (narrow_ok hnarrow)
  rw [permits_iff, leq_iff] at h ⊢
  exact fun dim => (h dim).trans (hle dim)

/-- Where the list is asked for the effect's host, the search does not stop. -/
def Searchable (grant : Grant) (allowlist : List String) (e : EffectKind) : Prop :=
  grant.network ≠ .full → isNetEffect e.name = true → ∀ host, netEffectHost e = some host → ¬ Stops host.toList allowlist

theorem permitOne_narrowed (hnarrow : Grant.narrow parent child = .ok child)
    (hsub : ∀ entry ∈ narrower, entry ∈ allowlist) (h : child.permitOneWithAllowlist narrower e = .ok ()) :
    parent.permitOneWithAllowlist allowlist e = .ok () ↔ Searchable parent allowlist e := by
  unfold Grant.permitOneWithAllowlist at h ⊢
  unfold Searchable
  by_cases hnet : isNetEffect e.name = true
  · by_cases hparent : parent.network = .full
    · simp [hnet, hparent]
    · have hchild : child.network ≠ .full := by
        intro hfull
        have hle := leq_iff.mp (narrow_ok hnarrow) .network
        revert hle hparent
        show _ → child.network.rank ≤ parent.network.rank → _
        rw [hfull]
        cases parent.network <;> decide
      rw [if_pos hnet, if_neg hchild] at h
      rw [if_pos hnet, if_neg hparent]
      cases hhost : netEffectHost e with
      | none =>
        rw [hhost] at h
        exact nomatch h
      | some host =>
        rw [hhost] at h
        have hnarrower : hostInAllowlist host.toList narrower = some true := by
          dsimp only at h
          split at h
          · assumption
          · exact nomatch h
          · exact nomatch h
        rw [show (∀ host', some host = some host' → ¬ Stops host'.toList allowlist) ↔ ¬ Stops host.toList allowlist by
          simp, ← hostInAllowlist_mono hsub hnarrower]
        dsimp only
        cases hostInAllowlist host.toList allowlist with
        | none => simp [hnet, hparent]
        | some b => cases b <;> simp [hnet, hparent]
  · rw [if_neg hnet] at h ⊢
    have hone : child.permitOne e = .ok () := by
      cases hone : child.permitOne e with
      | ok => rfl
      | error error =>
        rw [hone] at h
        exact nomatch h
    have hwider : parent.permitOne e = .ok () :=
      forM_ok.mp (permits_narrowed hnarrow (forM_ok.mpr (forall_mem_singleton.mpr hone))) e (mem_singleton.mpr rfl)
    rw [hwider]
    exact iff_of_true rfl fun _ h => absurd h hnet

theorem permitsAllowlist_narrowed (hnarrow : Grant.narrow parent child = .ok child)
    (hsub : ∀ entry ∈ narrower, entry ∈ allowlist)
    (h : child.permitsEffectsWithAllowlist reached narrower = .ok ()) :
    parent.permitsEffectsWithAllowlist reached allowlist = .ok () ↔ ∀ e ∈ reached, Searchable parent allowlist e := by
  unfold Grant.permitsEffectsWithAllowlist at h ⊢
  rw [forM_ok] at h ⊢
  exact forall₂_congr fun e he => permitOne_narrowed hnarrow hsub (h e he)

/-- **The derived grant is least and narrowing is sound. A host is matched, and a wider list takes what the narrower
one took, just where no wildcard cuts a host.** -/
theorem trust_iff (hnarrow : Grant.narrow parent child = .ok child) (hsub : ∀ entry ∈ narrower, entry ∈ allowlist)
    (haccepted : child.permitsEffectsWithAllowlist reached narrower = .ok ()) :
    (LeastFor effects ∧ (child.permitsEffects declared = .ok () → parent.permitsEffects declared = .ok ()) ∧
      parent.permitsEffectsWithAllowlist reached allowlist = .ok () ∧ MatchesHost entry host) ↔
      ¬ Cuts entry host ∧ ∀ e ∈ reached, Searchable parent allowlist e := by
  rw [permitsAllowlist_narrowed hnarrow hsub haccepted, matchesHost_iff, and_comm (a := ¬ Cuts entry host)]
  exact ⟨fun h => h.2.2, fun h => ⟨leastFor effects, permits_narrowed hnarrow, h⟩⟩

theorem trust_iff_example :
    (LeastFor [.withStr "net" "a.x"] ∧
      (Grant.permitsEffects ⟨.none, .loopback, .none⟩ [.bare "time"] = .ok () →
        Grant.permitsEffects ⟨.none, .allowlist, .none⟩ [.bare "time"] = .ok ()) ∧
      Grant.permitsEffectsWithAllowlist ⟨.none, .allowlist, .none⟩ [.withStr "net" "a.x"] ["b.x", "*.x"] = .ok () ∧
      MatchesHost "*.x:80".toList "a.X".toList) ↔
      ¬ Cuts "*.x:80".toList "a.X".toList ∧
        ∀ e ∈ [EffectKind.withStr "net" "a.x"], Searchable ⟨.none, .allowlist, .none⟩ ["b.x", "*.x"] e :=
  trust_iff (show Grant.narrow _ ⟨.none, .loopback, .none⟩ = .ok _ from rfl)
    (show ∀ entry ∈ ["*.x"], entry ∈ ["b.x", "*.x"] by simp) rfl

/-- A byte before the end is inside of a character. -/
theorem matchesHost_fails : ¬ MatchesHost "*.x".toList "aé".toList := by
  rintro ⟨b, h, -⟩
  have hpanics : hostMatches "*.x".toList "aé".toList = none := by decide
  exact nomatch hpanics.symm.trans h

end Narrowing

end LexLang.Types
