/-
# LexLang.Loader.Hygiene — when a rewritten name keeps its meaning

One occurrence of one file, against the scope of the merged program. `Fine` says for each kind of
occurrence what must not happen; `resolve_rewrite_iff` that nothing else can go wrong.
-/
import LexLang.Loader.Rewriting
import LexLang.Loader.Scope

namespace LexLang.Loader

open LexLang.Syntax
open LexLang.Ast (isConstructorName unqualified)
open List Option
open String

/-! ## Names with a dot -/

theorem unqualified_append (a b : String) : unqualified (a ++ "." ++ b) = unqualified b := by
  have hdot : (a ++ "." ++ b).toList.reverse = b.toList.reverse ++ '.' :: a.toList.reverse := by
    simp
  unfold unqualified
  rw [hdot]
  congr 2
  induction b.toList.reverse with
  | nil => simp
  | cons c cs ih =>
    rw [cons_append, takeWhile_cons, takeWhile_cons, ih]

@[simp] theorem capital_append (a b : String) : capital (a ++ "." ++ b) = capital b := by
  rw [capital, unqualified_append, capital]

variable {head : String}

theorem splitOnce_append (hhead : dotted head = false) (rest : String) :
    splitOnce '.' (head ++ "." ++ rest) = some (head, rest) := by
  have hsplit : (head ++ "." ++ rest).toList = head.toList ++ '.' :: rest.toList := by simp
  have hall : ∀ c ∈ head.toList, decide (c ≠ '.') = true := fun c hc =>
    decide_eq_true fun h => dotted_eq_false.mp hhead (h ▸ hc)
  unfold splitOnce
  rw [if_pos (by simp [hsplit]), hsplit, takeWhile_append_of_pos hall, dropWhile_append_of_pos hall]
  simp

variable {name : String}

theorem splitOnce_eq_none (h : dotted name = false) : splitOnce '.' name = none :=
  if_neg (dotted_eq_false.mp h)

variable {rest : String}

theorem eq_of_splitOnce (h : splitOnce '.' name = some (head, rest)) :
    name = head ++ "." ++ rest ∧ dotted head = false := by
  have hdot : '.' ∈ name.toList := by
    by_contra hdot
    simp [splitOnce, hdot] at h
  obtain ⟨before, after, hname, hbefore⟩ := eq_append_cons_of_mem hdot
  have hplain : dotted (ofList before) = false := by
    rwa [dotted_eq_false, toList_ofList]
  have heq : name = ofList before ++ "." ++ ofList after := by
    apply toList_injective
    simp [hname]
  rw [heq, splitOnce_append hplain] at h
  obtain ⟨rfl, rfl⟩ := Prod.mk.inj (some.inj h)
  exact ⟨heq, hplain⟩

theorem dotted_of_splitOnce (h : splitOnce '.' name = some (head, rest)) : dotted name = true := by
  rw [(eq_of_splitOnce h).1]
  exact dotted_append head rest

/-! ## What has to hold at an occurrence -/

section Fine

variable (G S : Scope) (m : Mangler) (o : Occurrence)

/-- **A value** is bound, or qualified, or else means in the merged program what it means in its file. -/
def FineValue (name : String) : Prop :=
  (o.site.binder name).isSome ∨
    (o.inPredicate = false ∧ name ∉ o.site.names ∧ name ∈ m.localNames) ∨
      G.readValue name = S.readValue name

/-- **An access.** Where it is left as written, its head must keep its meaning. The new alias of a module
must not be taken at the place; neither it nor the alias of a file may be the name of a declaration that
comes first; and a name that the file behind the alias does not declare must denote nothing. -/
def FineMember (head field : String) : Prop :=
  (o.site.binder head).isSome ∨
    if o.inPredicate = true ∨ head ∈ o.site.names then G.readMember head field = S.readMember head field
    else
      match m.aliasRenames head with
      | some fresh =>
        o.site.binder fresh = none ∧ G.valueDecl fresh = none ∧ S.valueDecl head = none ∧
          S.via head = G.via fresh
      | none =>
        match m.pathImports head with
        | some child =>
          match S.valueDecl head with
          | some origin => G.readValue (child ++ "." ++ field) = .decl origin
          | none =>
            ∃ c declares, S.via head = some (.file c declares) ∧
              (field ∈ declares ∨ capital field = true ∨
                G.readValue (child ++ "." ++ field) = .nothing)
        | none =>
          if head ∈ m.localNames ∧ m.prefixText ≠ "" then capital head = true → S.via head = none
          else G.readMember head field = S.readMember head field

/-- **A type.** A type parameter must not be the name of a declaration of its file, which would be
qualified. The rest is as for an access; but a prefix may be spelled as an alias is. -/
def FineType (name : String) : Prop :=
  if (o.site.typeParam name).isSome then
    o.inPredicate = true ∨ name ∉ m.localNames ∨ m.prefixText = ""
  else if o.inPredicate = true then G.readType name = S.readType name
  else
    match splitOnce '.' name with
    | none => name ∈ m.localNames ∨ G.readType name = S.readType name
    | some (head, rest) =>
      match m.aliasRenames head with
      | some fresh =>
        (G.decl (fresh ++ "." ++ rest) = none ∧ S.via head = G.via fresh) ∨
          ∃ c declares, S.via head = some (.file c declares) ∧ rest ∈ declares ∧
            G.decl (fresh ++ "." ++ rest) = some (c, rest)
      | none =>
        match m.pathImports head with
        | some child =>
          match S.via head with
          | some (.file _ declares) =>
            rest ∈ declares ∨ G.readType (child ++ "." ++ rest) = .nothing
          | some (.module reference) => G.readType (child ++ "." ++ rest) = .member reference rest
          | none => False
        | none => G.readType name = S.readType name

/-- **No name is captured, and none gets lost.** -/
def Fine : Prop :=
  match o.reference with
  | .value name => FineValue G S m o name
  | .member head field _ => FineMember G S m o head field
  | .type name => FineType G S m o name

end Fine

/-! ## Scopes that fit -/

/-- **How the scope of the merged program fits a file's**, under names of which each denotes one
declaration. -/
structure Linked (G S : Scope) (m : Mangler) (c : Canonical) : Prop where
  plain : m.Plain
  own : ∀ name, S.decl name = if name ∈ m.localNames then some (c, name) else none
  named : ∀ name ∈ m.localNames, G.decl (m.qualify name) = some (c, name)
  unnamed : ∀ x name, G.decl x = some (c, name) → x = m.qualify name
  viaPlain : ∀ name, dotted name = true → G.via name = none
  viaModule : ∀ name v, G.via name = some v → ∃ reference, v = .module reference
  renamed : ∀ head fresh, m.aliasRenames head = some fresh →
    fresh ≠ head ∧ dotted fresh = false ∧ (G.via fresh).isSome
  imports : ∀ head, (m.pathImports head).isSome → (S.via head).isSome
  files : ∀ head g declares, S.via head = some (.file g declares) →
    ∃ child, m.pathImports head = some child ∧
      (∀ name ∈ declares, G.decl (child ++ "." ++ name) = some (g, name)) ∧
        ∀ x name, G.decl x = some (g, name) → dotted x = true

variable {field : String}

namespace Scope

variable (S : Scope)

theorem readMember_ne_bound (head field : String) (i : Nat) : S.readMember head field ≠ .bound i := by
  unfold readMember Via.read
  intro h
  repeat' split at h
  all_goals simp at h

theorem readMember_eq_decl {origin : Origin} (h : S.readMember head field = .decl origin) :
    S.valueDecl head = some origin ∨
      ∃ c declares, S.via head = some (.file c declares) ∧ origin = (c, field) ∧ field ∈ declares := by
  unfold readMember at h
  split at h
  · next origin' hdecl =>
    obtain rfl := Target.decl.inj h
    exact .inl hdecl
  · split at h
    · simp at h
    · next c declares hvia =>
      split at h
      · simp at h
      · simp only [Via.read] at h
        split at h
        · next hmem => exact .inr ⟨c, declares, hvia, (Target.decl.inj h).symm, hmem⟩
        · simp at h
    · split at h
      all_goals simp at h

theorem readMember_eq_member (head field reference : String) : S.readMember head field = .member reference field ↔
      S.valueDecl head = none ∧ S.via head = some (.module reference) := by
  constructor
  · intro h
    unfold readMember at h
    split at h
    · simp at h
    · next hdecl =>
      refine ⟨hdecl, ?_⟩
      unfold Via.read at h
      repeat' split at h
      all_goals simp_all
  · rintro ⟨hdecl, hvia⟩
    simp [readMember, hdecl, hvia]

end Scope

/-- Binders are identifiers. -/
def Site.Plain (s : Site) : Prop :=
  (∀ name ∈ s.names, dotted name = false) ∧ ∀ name ∈ s.typeParams, dotted name = false

variable {s : Site}

theorem Site.mem_names_of_binder {i : Nat} (h : s.binder name = some i) : name ∈ s.names := by
  obtain ⟨hi, hname, _⟩ := List.findIdx?_eq_some_iff_getElem.mp h
  simp only [Bool.and_eq_true, decide_eq_true_eq] at hname
  exact List.mem_map.mpr ⟨s.bound[i], getElem_mem hi, hname.1⟩

theorem Site.binder_eq_none (h : name ∉ s.names) : s.binder name = none := by
  cases hb : s.binder name with
  | none => rfl
  | some i => exact absurd (mem_names_of_binder hb) h

theorem Site.Plain.binder_of_dotted (hs : s.Plain) (h : dotted name = true) : s.binder name = none :=
  binder_eq_none fun hmem => by simp [hs.1 name hmem] at h

theorem Site.Plain.typeParam_of_dotted (hs : s.Plain) (h : dotted name = true) : s.typeParam name = none := by
  apply List.findIdx?_eq_none_iff.mpr
  intro x hx
  by_contra heq
  simp only [decide_eq_false_iff_not, not_not] at heq
  simp [hs.2 x hx, ← heq] at h

namespace Mangler

variable (m : Mangler)

theorem capital_qualify (name : String) : capital (m.qualify name) = capital name := by
  unfold qualify
  split
  · rfl
  · exact capital_append _ _

theorem qualify_eq_or_dotted (name : String) :
    (m.prefixText = "" ∧ m.qualify name = name) ∨ (m.prefixText ≠ "" ∧ dotted (m.qualify name) = true) := by
  by_cases h : m.prefixText = ""
  · exact .inl ⟨h, if_pos h⟩
  · refine .inr ⟨h, ?_⟩
    rw [qualify, if_neg h]
    exact dotted_append _ _

end Mangler

namespace Linked

variable {G S : Scope} {m : Mangler} {c : Canonical} (L : Linked G S m c)

include L

/-- A qualified name is read as the name in its file. -/
theorem readValue_qualify (h : name ∈ m.localNames) : G.readValue (m.qualify name) = S.readValue name := by
  simp [Scope.readValue, m.capital_qualify, L.named name h, L.own, h]

theorem readType_qualify (h : name ∈ m.localNames) : G.readType (m.qualify name) = S.readType name := by
  simp [Scope.readType, L.named name h, L.own, h]

theorem resolve_value (hs : s.Plain) (name : String) (p : Bool) :
    G.resolve (m.rewrite ⟨s, .value name, p⟩) = S.resolve ⟨s, .value name, p⟩ ↔
      FineValue G S m ⟨s, .value name, p⟩ name := by
  cases hb : s.binder name with
  | some i =>
    -- a bound name is left as written
    have hname := Site.mem_names_of_binder hb
    have hrewrite : m.rewrite ⟨s, .value name, p⟩ = ⟨s, .value name, p⟩ := by
      simp [Mangler.rewrite, Mangler.rewriteReference, Mangler.rewriteVar, hname]
    simp [hrewrite, Scope.resolve, FineValue, hb]
  | none =>
    by_cases hq : p = false ∧ name ∉ s.names ∧ name ∈ m.localNames
    · obtain ⟨rfl, hnames, hlocal⟩ := hq
      have hbinder : s.binder (m.qualify name) = none := by
        obtain ⟨_, heq⟩ | ⟨_, hdot⟩ := m.qualify_eq_or_dotted name
        · rw [heq, hb]
        · exact hs.binder_of_dotted hdot
      simp [Mangler.rewrite, Mangler.rewriteReference, Mangler.rewriteVar, hnames, hlocal, Scope.resolve,
        hbinder, hb, L.readValue_qualify hlocal, FineValue]
    · have hrewrite : m.rewrite ⟨s, .value name, p⟩ = ⟨s, .value name, p⟩ := by
        cases p with
        | true => rfl
        | false =>
          have hkeep : ¬(name ∉ s.names ∧ name ∈ m.localNames) := fun h => hq ⟨rfl, h⟩
          simp only [Mangler.rewrite, Mangler.rewriteReference, Mangler.rewriteVar, if_neg hkeep]
          rfl
      rw [hrewrite]
      simp [Scope.resolve, FineValue, hb]
      tauto

omit L in
/-- Where an access is left as written. -/
theorem resolve_member_kept (plain : dotted head = false) {p : Bool} (hkeep : p = true ∨ head ∈ s.names) :
    G.resolve (m.rewrite ⟨s, .member head field plain, p⟩) = S.resolve ⟨s, .member head field plain, p⟩ ↔
      FineMember G S m ⟨s, .member head field plain, p⟩ head field := by
  have hrewrite : m.rewrite ⟨s, .member head field plain, p⟩ = ⟨s, .member head field plain, p⟩ := by
    obtain rfl | hnames := hkeep
    · rfl
    · simp [Mangler.rewrite, Mangler.rewriteReference, hnames]
  rw [hrewrite, FineMember, if_pos hkeep]
  cases hb : s.binder head with
  | some i => simp [Scope.resolve, hb]
  | none => simp [Scope.resolve, hb]

/-- Where the alias of an access has become another. -/
theorem resolve_member_rebound {fresh : String}
    (plain : dotted head = false) (hnames : head ∉ s.names) (hfresh : m.aliasRenames head = some fresh) :
    G.resolve (m.rewrite ⟨s, .member head field plain, false⟩) = S.resolve ⟨s, .member head field plain, false⟩ ↔
      FineMember G S m ⟨s, .member head field plain, false⟩ head field := by
  obtain ⟨hne, hplain, hsome⟩ := L.renamed head fresh hfresh
  obtain ⟨v, hv⟩ := isSome_iff_exists.mp hsome
  obtain ⟨reference, rfl⟩ := L.viaModule fresh v hv
  have hb := Site.binder_eq_none hnames
  have hrewrite : m.rewrite ⟨s, .member head field plain, false⟩ = ⟨s, .member fresh field hplain, false⟩ := by
    simp [Mangler.rewrite, Mangler.rewriteReference, hnames, hfresh, Reference.headed, hplain]
  have hfine : FineMember G S m ⟨s, .member head field plain, false⟩ head field ↔
      s.binder fresh = none ∧ G.valueDecl fresh = none ∧ S.valueDecl head = none ∧
        S.via head = some (.module reference) := by
    simp [FineMember, hb, hnames, hfresh, hv]
  rw [hrewrite, hfine]
  simp only [Scope.resolve, hb, elim_none]
  cases hbf : s.binder fresh with
  | some i =>
    -- a binder has the new alias
    simp [(S.readMember_ne_bound head field i).symm]
  | none =>
    cases hdecl : G.valueDecl fresh with
    | some origin =>
      -- a declaration without a prefix has the new alias; it is not what the file means
      have hG : G.decl fresh = some origin := by
        unfold Scope.valueDecl at hdecl
        split at hdecl
        · simp at hdecl
        · exact hdecl
      have hread : G.readMember fresh field = .decl origin := by simp [Scope.readMember, hdecl]
      simp only [elim_none, hread, reduceCtorEq, false_and, and_false, iff_false]
      intro heq
      obtain hown | ⟨g, declares, hvia, rfl, _⟩ := S.readMember_eq_decl heq.symm
      · have horigin : origin = (c, head) := by
          unfold Scope.valueDecl at hown
          rw [L.own head] at hown
          split at hown
          · simp at hown
          · split at hown
            · exact (some.inj hown).symm
            · simp at hown
        subst horigin
        have hname := L.unnamed fresh head hG
        obtain ⟨_, hq⟩ | ⟨_, hdot⟩ := m.qualify_eq_or_dotted head
        · exact hne (hname.trans hq)
        · rw [← hname, hplain] at hdot
          simp at hdot
      · obtain ⟨_, _, _, hdotted⟩ := L.files head g declares hvia
        simpa [hplain] using hdotted fresh field hG
    | none =>
      have hread : G.readMember fresh field = .member reference field :=
        (G.readMember_eq_member _ _ _).mpr ⟨hdecl, hv⟩
      rw [elim_none, hread, eq_comm, S.readMember_eq_member]
      simp

/-- Where the alias of an access is that of a file. -/
theorem resolve_member_inlined (hs : s.Plain) {child : String}
    (plain : dotted head = false) (hnames : head ∉ s.names) (hrename : m.aliasRenames head = none)
    (hchild : m.pathImports head = some child) : G.resolve (m.rewrite ⟨s, .member head field plain, false⟩) =
        S.resolve ⟨s, .member head field plain, false⟩ ↔
      FineMember G S m ⟨s, .member head field plain, false⟩ head field := by
  have hb := Site.binder_eq_none hnames
  have hdot : dotted (child ++ "." ++ field) = true := dotted_append child field
  have hfine : FineMember G S m ⟨s, .member head field plain, false⟩ head field ↔
      match S.valueDecl head with
      | some origin => G.readValue (child ++ "." ++ field) = .decl origin
      | none =>
        ∃ c declares, S.via head = some (.file c declares) ∧
          (field ∈ declares ∨ capital field = true ∨ G.readValue (child ++ "." ++ field) = .nothing) := by
    simp [FineMember, hb, hnames, hrename, hchild]
  have hrewrite : G.resolve (m.rewrite ⟨s, .member head field plain, false⟩) =
      G.readValue (child ++ "." ++ field) := by
    simp [Mangler.rewrite, Mangler.rewriteReference, hnames, hrename, hchild, Scope.resolve, hs.binder_of_dotted hdot]
  have hresolve : S.resolve ⟨s, .member head field plain, false⟩ = S.readMember head field := by
    simp [Scope.resolve, hb]
  rw [hrewrite, hresolve, hfine]
  cases hdecl : S.valueDecl head with
  | some origin => simp [Scope.readMember, hdecl]
  | none =>
    obtain ⟨v, hv⟩ := isSome_iff_exists.mp (L.imports head (by simp [hchild]))
    cases v with
    | module reference =>
      -- the file binds the alias again, to a module
      have hread : S.readMember head field = .member reference field :=
        (S.readMember_eq_member _ _ _).mpr ⟨hdecl, hv⟩
      have hne : G.readValue (child ++ "." ++ field) ≠ .member reference field := by
        unfold Scope.readValue
        repeat' split
        all_goals simp
      simp [hread, hne, hv]
    | file g declares =>
      obtain ⟨child', hchild', hnamed, _⟩ := L.files head g declares hv
      obtain rfl : child' = child := some.inj (hchild'.symm.trans hchild)
      by_cases hcapital : capital field = true
      · simp [Scope.readMember, Scope.readValue, hdecl, hv, hcapital]
      · by_cases hmem : field ∈ declares
        · simp [Scope.readMember, Scope.readValue, hdecl, hv, hcapital, hmem, hnamed field hmem, Via.read]
        · simp [Scope.readMember, hdecl, hv, hcapital, hmem, Via.read]

/-- Where the head of an access is no alias that is rewritten. -/
theorem resolve_member_plain (hs : s.Plain) (plain : dotted head = false)
    (hnames : head ∉ s.names) (hrename : m.aliasRenames head = none) (hchild : m.pathImports head = none) :
    G.resolve (m.rewrite ⟨s, .member head field plain, false⟩) = S.resolve ⟨s, .member head field plain, false⟩ ↔
      FineMember G S m ⟨s, .member head field plain, false⟩ head field := by
  have hb := Site.binder_eq_none hnames
  have hfine : FineMember G S m ⟨s, .member head field plain, false⟩ head field ↔
      if head ∈ m.localNames ∧ m.prefixText ≠ "" then capital head = true → S.via head = none
      else G.readMember head field = S.readMember head field := by
    simp [FineMember, hb, hnames, hrename, hchild]
  have hrewrite : m.rewrite ⟨s, .member head field plain, false⟩ =
      ⟨s, .headed (m.rewriteVar s.names head) field, false⟩ := by
    simp [Mangler.rewrite, Mangler.rewriteReference, hnames, hrename, hchild]
  rw [hrewrite, hfine]
  by_cases hlocal : head ∈ m.localNames ∧ m.prefixText ≠ ""
  · have hvar : m.rewriteVar s.names head = m.qualify head := if_pos ⟨hnames, hlocal.1⟩
    have hdot : dotted (m.qualify head) = true :=
      (m.qualify_eq_or_dotted head).elim (fun h => absurd h.1 hlocal.2) And.right
    rw [if_pos hlocal, hvar, Reference.headed_of_dotted hdot]
    simp only [Scope.resolve, hs.binder_of_dotted hdot, hb, elim_none]
    rw [L.readValue_qualify hlocal.1]
    by_cases hcapital : capital head = true
    · -- a capitalised head is a constructor unless an import has the alias
      cases hvia : S.via head with
      | none => simp [Scope.readValue, Scope.readMember, Scope.valueDecl, hcapital, hvia]
      | some v =>
        cases v with
        | module reference => simp [Scope.readValue, Scope.readMember, Scope.valueDecl, hcapital, hvia]
        | file g declares =>
          obtain ⟨child, hsome, _⟩ := L.files head g declares hvia
          simp [hchild] at hsome
    · simp [Scope.readValue, Scope.readMember, Scope.valueDecl, hcapital, L.own, hlocal.1]
  · have hvar : m.rewriteVar s.names head = head := by
      by_cases hmem : head ∈ m.localNames
      · have hempty : m.prefixText = "" := by
          by_contra h
          exact hlocal ⟨hmem, h⟩
        simp [Mangler.rewriteVar, Mangler.qualify, hempty]
      · simp [Mangler.rewriteVar, hmem]
    rw [if_neg hlocal, hvar]
    simp [Reference.headed, plain, Scope.resolve, hb]

theorem resolve_member (hs : s.Plain) (head field : String) (plain : dotted head = false) (p : Bool) :
    G.resolve (m.rewrite ⟨s, .member head field plain, p⟩) = S.resolve ⟨s, .member head field plain, p⟩ ↔
      FineMember G S m ⟨s, .member head field plain, p⟩ head field := by
  by_cases hkeep : p = true ∨ head ∈ s.names
  · exact resolve_member_kept plain hkeep
  · obtain ⟨hp, hnames⟩ := not_or.mp hkeep
    obtain rfl : p = false := by simpa using hp
    cases hrename : m.aliasRenames head with
    | some fresh => exact L.resolve_member_rebound plain hnames hrename
    | none =>
      cases hchild : m.pathImports head with
      | some child => exact L.resolve_member_inlined hs plain hnames hrename hchild
      | none => exact L.resolve_member_plain hs plain hnames hrename hchild

/-! ### Types -/

theorem decl_of_dotted (h : dotted name = true) : S.decl name = none := by
  rw [L.own]
  apply if_neg
  intro hlocal
  simp [L.plain.localNames name hlocal] at h

/-- A qualified type is read in a file through the alias alone. -/
theorem readType_split (h : splitOnce '.' name = some (head, rest)) :
    S.readType name = (S.via head).elim .nothing (Via.read rest) := by
  simp [Scope.readType, L.decl_of_dotted (dotted_of_splitOnce h), h]

/-- Where the alias of a type has become another. -/
theorem readType_rebound {fresh : String} (hsplit : splitOnce '.' name = some (head, rest))
    (hfresh : m.aliasRenames head = some fresh) : G.readType (fresh ++ "." ++ rest) = S.readType name ↔
      (G.decl (fresh ++ "." ++ rest) = none ∧ S.via head = G.via fresh) ∨
        ∃ c declares, S.via head = some (.file c declares) ∧ rest ∈ declares ∧
          G.decl (fresh ++ "." ++ rest) = some (c, rest) := by
  obtain ⟨_, hplain, hsome⟩ := L.renamed head fresh hfresh
  obtain ⟨v, hv⟩ := isSome_iff_exists.mp hsome
  obtain ⟨reference, rfl⟩ := L.viaModule fresh v hv
  rw [L.readType_split hsplit]
  cases hdecl : G.decl (fresh ++ "." ++ rest) with
  | some origin =>
    have hread : G.readType (fresh ++ "." ++ rest) = .decl origin := by simp [Scope.readType, hdecl]
    rw [hread]
    rcases hvia : S.via head with _ | ⟨g, declares⟩ | reference'
    · simp
    · by_cases hmem : rest ∈ declares
      · simp [Via.read, hmem]
      · simp [Via.read, hmem]
    · simp [Via.read]
  | none =>
    have hread : G.readType (fresh ++ "." ++ rest) = .member reference rest := by
      simp [Scope.readType, hdecl, splitOnce_append hplain, hv, Via.read]
    rw [hread]
    rcases hvia : S.via head with _ | ⟨g, declares⟩ | reference'
    · simp [hv]
    · by_cases hmem : rest ∈ declares
      · simp [Via.read, hmem, hv]
      · simp [Via.read, hmem, hv]
    · simp [Via.read, hv, eq_comm]

/-- Where the alias of a type is that of a file. -/
theorem readType_inlined {child : String} (hsplit : splitOnce '.' name = some (head, rest))
    (hchild : m.pathImports head = some child) :
    G.readType (child ++ "." ++ rest) = S.readType name ↔
      match S.via head with
      | some (.file _ declares) => rest ∈ declares ∨ G.readType (child ++ "." ++ rest) = .nothing
      | some (.module reference) => G.readType (child ++ "." ++ rest) = .member reference rest
      | none => False := by
  obtain ⟨v, hv⟩ := isSome_iff_exists.mp (L.imports head (by simp [hchild]))
  rw [L.readType_split hsplit, hv]
  cases v with
  | module reference => simp [Via.read]
  | file g declares =>
    obtain ⟨child', hchild', hnamed, _⟩ := L.files head g declares hv
    obtain rfl : child' = child := some.inj (hchild'.symm.trans hchild)
    by_cases hmem : rest ∈ declares
    · simp [Via.read, hmem, Scope.readType, hnamed rest hmem]
    · simp [Via.read, hmem]

/-- A type parameter is left alone unless the file declares its name. -/
theorem resolve_typeParam (hs : s.Plain) {i : Nat} (hparam : s.typeParam name = some i) :
    G.resolve (m.rewrite ⟨s, .type name, false⟩) = .typeParam i ↔ name ∉ m.localNames ∨ m.prefixText = "" := by
  have hplain : dotted name = false := by
    cases hdot : dotted name with
    | false => rfl
    | true => simp [hs.typeParam_of_dotted hdot] at hparam
  have hrewrite : m.rewrite ⟨s, .type name, false⟩ =
      ⟨s, .type (if name ∈ m.localNames then m.qualify name else name), false⟩ := by
    simp [Mangler.rewrite, Mangler.rewriteReference, Mangler.rewriteTypeName, splitOnce_eq_none hplain]
  rw [hrewrite]
  by_cases hlocal : name ∈ m.localNames
  · obtain ⟨hempty, heq⟩ | ⟨hne, hdot⟩ := m.qualify_eq_or_dotted name
    · simp [hlocal, heq, hempty, Scope.resolve, hparam]
    · have hread : G.readType (m.qualify name) = .decl (c, name) := by
        simp [Scope.readType, L.named name hlocal]
      simp [hlocal, hne, Scope.resolve, hs.typeParam_of_dotted hdot, hread]
  · simp [hlocal, Scope.resolve, hparam]

theorem resolve_type (hs : s.Plain) (name : String) (p : Bool) :
    G.resolve (m.rewrite ⟨s, .type name, p⟩) = S.resolve ⟨s, .type name, p⟩ ↔
      FineType G S m ⟨s, .type name, p⟩ name := by
  cases hparam : s.typeParam name with
  | some i =>
    cases p with
    | true => simp [Mangler.rewrite, Scope.resolve, hparam, FineType]
    | false =>
      have hS : S.resolve ⟨s, .type name, false⟩ = .typeParam i := by simp [Scope.resolve, hparam]
      rw [hS, L.resolve_typeParam hs hparam]
      simp [FineType, hparam]
  | none =>
    have hS : S.resolve ⟨s, .type name, p⟩ = S.readType name := by simp [Scope.resolve, hparam]
    rw [hS]
    cases p with
    | true => simp [Mangler.rewrite, Scope.resolve, hparam, FineType]
    | false =>
      have hrewrite : G.resolve (m.rewrite ⟨s, .type name, false⟩) =
          (s.typeParam (m.rewriteTypeName name)).elim (G.readType (m.rewriteTypeName name)) .typeParam := rfl
      rw [hrewrite]
      cases hsplit : splitOnce '.' name with
      | none =>
        by_cases hlocal : name ∈ m.localNames
        · have hnone : s.typeParam (m.qualify name) = none := by
            obtain ⟨_, heq⟩ | ⟨_, hdot⟩ := m.qualify_eq_or_dotted name
            · rw [heq, hparam]
            · exact hs.typeParam_of_dotted hdot
          simp [Mangler.rewriteTypeName, hsplit, hlocal, hnone, L.readType_qualify hlocal, FineType, hparam]
        · simp [Mangler.rewriteTypeName, hsplit, hlocal, hparam, FineType]
      | some parts =>
        obtain ⟨head, rest⟩ := parts
        cases hrename : m.aliasRenames head with
        | some fresh =>
          simp only [Mangler.rewriteTypeName, hsplit, hrename, hs.typeParam_of_dotted (dotted_append _ _),
            elim_none]
          rw [L.readType_rebound hsplit hrename]
          simp [FineType, hparam, hsplit, hrename]
        | none =>
          cases hchild : m.pathImports head with
          | some child =>
            simp only [Mangler.rewriteTypeName, hsplit, hrename, hchild,
              hs.typeParam_of_dotted (dotted_append _ _), elim_none]
            rw [L.readType_inlined hsplit hchild]
            simp [FineType, hparam, hsplit, hrename, hchild]
          | none => simp [Mangler.rewriteTypeName, hsplit, hrename, hchild, hparam, FineType]

/-- **A rewritten occurrence denotes what it denotes in its file exactly where it is fine.** -/
theorem resolve_rewrite_iff {o : Occurrence} (hs : o.site.Plain) :
    G.resolve (m.rewrite o) = S.resolve o ↔ Fine G S m o := by
  obtain ⟨s, reference, p⟩ := o
  cases reference with
  | value name => exact L.resolve_value hs name p
  | member head field plain => exact L.resolve_member hs head field plain p
  | type name => exact L.resolve_type hs name p

end Linked

end LexLang.Loader
