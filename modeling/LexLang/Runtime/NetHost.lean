/-
# LexLang.Runtime.NetHost — the hosts that a program may reach

`ensure_host_allowed` and `extract_host` (`lex-runtime/src/handler/mod.rs`) look for the host in the text of a URL.
The client that sends the request takes the URL apart by its grammar. A URL is the list of its characters here.
-/
import Mathlib.Data.List.Basic

namespace LexLang.Runtime

open List Option

abbrev Text := List Char

/-! ## Cutting text -/

/-- `split_once`, at the first `c`. -/
def splitOnce (c : Char) : Text → Option (Text × Text)
  | [] => none
  | d :: s => if d = c then some ([], s) else (splitOnce c s).map fun (front, back) => (d :: front, back)

/-- `rsplit_once`, at the last `c`. -/
def rsplitOnce (c : Char) : Text → Option (Text × Text)
  | [] => none
  | d :: s =>
    match rsplitOnce c s with
    | some (front, back) => some (d :: front, back)
    | none => if d = c then some ([], s) else none

/-- `strip_prefix`. -/
def strip (start s : Text) : Option Text := if start.isPrefixOf s then some (s.drop start.length) else none

/-! ## The check -/

def extractHost (url : Text) : Option Text := do
  let r ← (((strip "http://".toList url).or (strip "https://".toList url)).or (strip "redis://".toList url)).or
    (strip "rediss://".toList url)
  let rest := ((splitOnce '@' r).map Prod.snd).getD r
  let hostPort := ((splitOnce '/' rest).map Prod.fst).getD rest
  some (((rsplitOnce ':' hostPort).map Prod.fst).getD hostPort)

/-- The host is not in `--allow-net-host`. -/
structure HostRefused where
  host : Text
  allowNetHost : List Text
  deriving DecidableEq

def ensureHostAllowed (allowNetHost : List Text) (url : Text) : Except HostRefused Unit :=
  if allowNetHost.isEmpty then .ok ()
  else
    let host := (extractHost url).getD []
    if allowNetHost.any (host == ·) then .ok () else .error ⟨host, allowNetHost⟩

/-! ## The client -/

/-- Without regard to the case of ASCII letters. -/
def SameHost (a b : Text) : Prop := a.map Char.toLower = b.map Char.toLower

instance (a b : Text) : Decidable (SameHost a b) := inferInstanceAs (Decidable (_ = _))

/-- What is behind `http://` or `https://`, in any case. -/
def clientRest (url : Text) : Option Text :=
  if SameHost (url.take 7) "http://".toList then some (url.drop 7)
  else if SameHost (url.take 8) "https://".toList then some (url.drop 8)
  else none

def authority (rest : Text) : Text := rest.takeWhile fun c => c ≠ '/' ∧ c ≠ '?' ∧ c ≠ '#'

/-- **The host that the client contacts**, if it accepts the URL. -/
def clientHost (url : Text) : Option Text := do
  let rest ← clientRest url
  let hostPort := ((rsplitOnce '@' (authority rest)).map Prod.snd).getD (authority rest)
  let host :=
    if hostPort.head? = some '[' then hostPort.takeWhile (· ≠ ']') ++ [']'] else hostPort.takeWhile (· ≠ ':')
  if host = [] then none else some host

/-! ## Where the host is looked for -/

/-- `t` is what is behind the first `c`, or everything if there is none. -/
def Behind (c : Char) (s t : Text) : Prop := (∃ front, s = front ++ c :: t ∧ c ∉ front) ∨ (c ∉ s ∧ t = s)

/-- `t` is what is in front of the first `c`. -/
def InFront (c : Char) (s t : Text) : Prop := (∃ back, s = t ++ c :: back ∧ c ∉ t) ∨ (c ∉ s ∧ t = s)

/-- `t` is what is in front of the last `c`. -/
def InFrontOfLast (c : Char) (s t : Text) : Prop := (∃ back, s = t ++ c :: back ∧ c ∉ back) ∨ (c ∉ s ∧ t = s)

/-- The text that stands behind the first `@` of the URL, in front of the next `/` and of the last `:` before that;
nothing if the scheme is not in small letters. -/
def Stands (url t : Text) : Prop :=
  (∃ rest behind hostPort, (url = "http://".toList ++ rest ∨ url = "https://".toList ++ rest) ∧
    Behind '@' rest behind ∧ InFront '/' behind hostPort ∧ InFrontOfLast ':' hostPort t) ∨
  ((∀ rest, url ≠ "http://".toList ++ rest ∧ url ≠ "https://".toList ++ rest) ∧ t = [])

section Cutting

variable {c : Char} {s front back : Text}

theorem splitOnce_none : splitOnce c s = none ↔ c ∉ s := by
  induction s with
  | nil => simp [splitOnce]
  | cons d s ih =>
    unfold splitOnce
    by_cases hd : d = c
    · simp [hd]
    · rw [if_neg hd, map_eq_none_iff, ih, mem_cons, not_or]
      exact ⟨fun h => ⟨Ne.symm hd, h⟩, fun h => h.2⟩

theorem splitOnce_some (h : splitOnce c s = some (front, back)) : s = front ++ c :: back ∧ c ∉ front := by
  induction s generalizing front with
  | nil => exact nomatch h
  | cons d s ih =>
    unfold splitOnce at h
    by_cases hd : d = c
    · rw [if_pos hd] at h
      obtain ⟨rfl, rfl⟩ := Prod.mk.inj (some.inj h)
      exact ⟨by rw [hd]; rfl, not_mem_nil⟩
    · rw [if_neg hd, map_eq_some_iff] at h
      obtain ⟨⟨front', back'⟩, hs, hpair⟩ := h
      obtain ⟨rfl, rfl⟩ := Prod.mk.inj hpair
      obtain ⟨rfl, hnot⟩ := ih hs
      refine ⟨rfl, ?_⟩
      rw [mem_cons, not_or]
      exact ⟨Ne.symm hd, hnot⟩

theorem rsplitOnce_none : rsplitOnce c s = none ↔ c ∉ s := by
  induction s with
  | nil => simp [rsplitOnce]
  | cons d s ih =>
    unfold rsplitOnce
    cases hs : rsplitOnce c s with
    | some r =>
      have hmem : c ∈ s := by
        by_contra hnot
        rw [ih.mpr hnot] at hs
        exact nomatch hs
      simp [hmem]
    | none =>
      have hnot := ih.mp hs
      by_cases hd : d = c
      · simp [hd]
      · simp [hd, Ne.symm hd, hnot]

theorem rsplitOnce_some (h : rsplitOnce c s = some (front, back)) : s = front ++ c :: back ∧ c ∉ back := by
  induction s generalizing front with
  | nil => exact nomatch h
  | cons d s ih =>
    unfold rsplitOnce at h
    cases hs : rsplitOnce c s with
    | some r =>
      rw [hs] at h
      obtain ⟨rfl, rfl⟩ := Prod.mk.inj (some.inj h)
      obtain ⟨heq, hnot⟩ : s = r.1 ++ c :: r.2 ∧ c ∉ r.2 := ih hs
      exact ⟨by rw [heq]; rfl, hnot⟩
    | none =>
      rw [hs] at h
      have hnot := rsplitOnce_none.mp hs
      by_cases hd : d = c
      · have h : some (([] : Text), s) = some (front, back) := by simpa [hd] using h
        obtain ⟨rfl, rfl⟩ := Prod.mk.inj (some.inj h)
        exact ⟨by rw [hd]; rfl, hnot⟩
      · simp [hd] at h

theorem strip_eq_some {start rest : Text} : strip start s = some rest ↔ s = start ++ rest := by
  unfold strip
  constructor
  · intro h
    split at h
    · next hstart =>
      obtain ⟨rest', rfl⟩ := isPrefixOf_iff_prefix.mp hstart
      rw [drop_left] at h
      rw [some.inj h]
    · exact nomatch h
  · rintro rfl
    rw [if_pos (List.isPrefixOf_iff_prefix.mpr (prefix_append start rest)), drop_left]

theorem first_unique {x x' z z' : Text} (h : x ++ c :: z = x' ++ c :: z') (hx : c ∉ x) (hx' : c ∉ x') :
    x = x' ∧ z = z' := by
  induction x generalizing x' with
  | nil =>
    cases x' with
    | nil => exact ⟨rfl, (List.cons.inj h).2⟩
    | cons d x' => exact absurd ((List.cons.inj h).1 ▸ mem_cons_self) hx'
  | cons d x ih =>
    cases x' with
    | nil => exact absurd ((List.cons.inj h).1 ▸ mem_cons_self) hx
    | cons d' x' =>
      obtain ⟨rfl, htail⟩ := List.cons.inj h
      obtain ⟨rfl, hz⟩ := ih htail (fun hc => hx (mem_cons_of_mem _ hc)) fun hc => hx' (mem_cons_of_mem _ hc)
      exact ⟨rfl, hz⟩

theorem last_unique {x x' z z' : Text} (h : x ++ c :: z = x' ++ c :: z') (hz : c ∉ z) (hz' : c ∉ z') :
    x = x' ∧ z = z' := by
  have h := congrArg reverse h
  simp only [reverse_append, reverse_cons, append_assoc, singleton_append] at h
  obtain ⟨hback, hfront⟩ := first_unique h (mem_reverse.not.mpr hz) (mem_reverse.not.mpr hz')
  exact ⟨reverse_inj.mp hfront, reverse_inj.mp hback⟩

variable {t : Text}

theorem behind_iff : Behind c s t ↔ ((splitOnce c s).map Prod.snd).getD s = t := by
  unfold Behind
  cases hs : splitOnce c s with
  | none =>
    have hnot := splitOnce_none.mp hs
    constructor
    · rintro (⟨front, rfl, -⟩ | ⟨-, rfl⟩)
      · exact absurd (mem_append_right _ mem_cons_self) hnot
      · rfl
    · rintro rfl
      exact .inr ⟨hnot, rfl⟩
  | some r =>
    obtain ⟨heq, hnot⟩ : s = r.1 ++ c :: r.2 ∧ c ∉ r.1 := splitOnce_some hs
    constructor
    · rintro (⟨front, hfront, hnot'⟩ | ⟨hc, -⟩)
      · exact (first_unique (heq.symm.trans hfront) hnot hnot').2
      · exact absurd (heq ▸ mem_append_right _ mem_cons_self) hc
    · rintro rfl
      exact .inl ⟨r.1, heq, hnot⟩

theorem inFront_iff : InFront c s t ↔ ((splitOnce c s).map Prod.fst).getD s = t := by
  unfold InFront
  cases hs : splitOnce c s with
  | none =>
    have hnot := splitOnce_none.mp hs
    constructor
    · rintro (⟨back, rfl, -⟩ | ⟨-, rfl⟩)
      · exact absurd (mem_append_right _ mem_cons_self) hnot
      · rfl
    · rintro rfl
      exact .inr ⟨hnot, rfl⟩
  | some r =>
    obtain ⟨heq, hnot⟩ : s = r.1 ++ c :: r.2 ∧ c ∉ r.1 := splitOnce_some hs
    constructor
    · rintro (⟨back, hback, hnot'⟩ | ⟨hc, -⟩)
      · exact (first_unique (heq.symm.trans hback) hnot hnot').1
      · exact absurd (heq ▸ mem_append_right _ mem_cons_self) hc
    · rintro rfl
      exact .inl ⟨r.2, heq, hnot⟩

theorem inFrontOfLast_iff : InFrontOfLast c s t ↔ ((rsplitOnce c s).map Prod.fst).getD s = t := by
  unfold InFrontOfLast
  cases hs : rsplitOnce c s with
  | none =>
    have hnot := rsplitOnce_none.mp hs
    constructor
    · rintro (⟨back, rfl, -⟩ | ⟨-, rfl⟩)
      · exact absurd (mem_append_right _ mem_cons_self) hnot
      · rfl
    · rintro rfl
      exact .inr ⟨hnot, rfl⟩
  | some r =>
    obtain ⟨heq, hnot⟩ : s = r.1 ++ c :: r.2 ∧ c ∉ r.2 := rsplitOnce_some hs
    constructor
    · rintro (⟨back, hback, hnot'⟩ | ⟨hc, -⟩)
      · exact (last_unique (heq.symm.trans hback) hnot hnot').1
      · exact absurd (heq ▸ mem_append_right _ mem_cons_self) hc
    · rintro rfl
      exact .inl ⟨r.2, heq, hnot⟩

end Cutting

/-! ## The text that is looked up -/

section Lookup

variable {url rest t host : Text} {allow : List Text}

theorem strip_http : (strip "http://".toList url).or (strip "https://".toList url) = some rest ↔
      url = "http://".toList ++ rest ∨ url = "https://".toList ++ rest := by
  rw [or_eq_some_iff, strip_eq_some, strip_eq_some]
  refine or_congr_right ⟨fun h => h.2, fun h => ⟨?_, h⟩⟩
  rw [h]
  rfl

theorem strip_redis (hclient : (clientRest url).isSome) :
    strip "redis://".toList url = none ∧ strip "rediss://".toList url = none := by
  have hother : ∀ start : Text, (∀ r, clientRest (start ++ r) = none) → strip start url = none := by
    intro start hstart
    refine eq_none_iff_forall_ne_some.mpr fun r hr => ?_
    rw [strip_eq_some.mp hr, hstart] at hclient
    exact nomatch hclient
  exact ⟨hother _ fun _ => rfl, hother _ fun _ => rfl⟩

/-- **The text that stands there is the one that the list is searched for.** -/
theorem stands_iff (hclient : (clientRest url).isSome) : Stands url t ↔ (extractHost url).getD [] = t := by
  obtain ⟨hredis, hrediss⟩ := strip_redis hclient
  unfold Stands extractHost
  simp only [← strip_http, behind_iff, inFront_iff, inFrontOfLast_iff]
  rw [hredis, hrediss, or_none, or_none]
  cases hstrip : (strip "http://".toList url).or (strip "https://".toList url) with
  | some rest =>
    constructor
    · rintro (⟨rest', behind, hostPort, hrest, hbehind, hfront, hlast⟩ | ⟨hno, -⟩)
      · obtain rfl := some.inj hrest
        rw [← hlast, ← hfront, ← hbehind]
        rfl
      · exact absurd (strip_http.mp hstrip) (not_or.mpr (hno rest))
    · rintro rfl
      exact .inl ⟨rest, _, _, rfl, rfl, rfl, rfl⟩
  | none =>
    constructor
    · rintro (⟨rest', behind, hostPort, hrest, -⟩ | ⟨-, rfl⟩)
      · exact nomatch hrest
      · rfl
    · rintro rfl
      refine .inr ⟨fun rest => not_or.mp fun h => ?_, rfl⟩
      exact nomatch hstrip.symm.trans (strip_http.mpr h)

end Lookup

/-! ## The allowlist -/

/-- The host is an entry of the list. -/
def Listed (allow : List Text) (host : Text) : Prop := ∃ entry ∈ allow, SameHost entry host

instance (allow : List Text) (host : Text) : Decidable (Listed allow host) :=
  inferInstanceAs (Decidable (∃ entry ∈ allow, SameHost entry host))

/-- What passes goes to a host of the list, and what goes there passes. -/
def BindsHost (allow : List Text) (url host : Text) : Prop :=
  (ensureHostAllowed allow url = .ok () → Listed allow host) ∧
    (Listed allow host → ensureHostAllowed allow url = .ok ())

theorem ensureHostAllowed_ok {allow : List Text} {url : Text} (hallow : allow ≠ []) :
    ensureHostAllowed allow url = .ok () ↔ (extractHost url).getD [] ∈ allow := by
  unfold ensureHostAllowed
  rw [if_neg (by simpa using hallow)]
  dsimp only
  constructor
  · intro h
    split at h
    · next hany => simpa using hany
    · exact nomatch h
  · intro h
    rw [if_pos (by simpa using h)]

end LexLang.Runtime
