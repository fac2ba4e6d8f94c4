/-
# LexLang.Loader.Visit — what one file adds to a load

The invariant of the state of a load (`Inv`), and what a step does to it (`Grew`): files are finished once
and never touched again, prefixes and aliases keep their meaning, and what comes out are the declarations
of the files that were finished, and the imports that claimed an alias.
-/
import LexLang.Loader.Scope
import LexLang.Loader.Rewriting

namespace LexLang.Loader

open LexLang.Syntax
open List Nat Option String

variable (disk : Disk) (inlinePackages : Bool)

/-! ## What is said of a file -/

def importsOf (items : List Item) : List Import := items.filterMap asImport

/-- The file that the last import of a file under an alias brings in. -/
def fileUnder (c : Canonical) (imports : List Import) (name : String) : Option Canonical :=
  imports.reverse.findSome? fun i => if i.importAlias = name then importedFile disk inlinePackages c i else none

/-- **One file imports another.** -/
def Brings (c g : Canonical) : Prop :=
  ∃ source, disk.parse c = .ok source ∧
    ∃ i ∈ importsOf source.program.items, importedFile disk inlinePackages c i = some g

abbrev Reaches : Canonical → Canonical → Prop := Relation.ReflTransGen (Brings disk inlinePackages)

namespace LoadedFile

variable (u : LoadedFile)

def declarations : List Item := u.source.program.items.filter fun item => (asImport item).isNone

/-- What the file adds to the merged program. -/
def entries : List Merged :=
  attachToFirst u.source.program.leadingComments
    (u.declarations.map fun item => ⟨u.file, item, u.mangler.mangleItem item⟩)

end LoadedFile

/-! ## Tables -/

/-- The files that some imports bring in are loaded, under a prefix. -/
def Brought (prefixes : Canonical → Option String) (loaded : List Canonical) (c : Canonical)
    (imports : List Import) : Prop :=
  ∀ i ∈ imports, ∀ g, importedFile disk inlinePackages c i = some g →
    g ∈ loaded ∧ ∃ child, prefixes g = some child ∧ child ≠ ""

/-- The aliases of files stand for the prefixes of these files. -/
def Pathed (prefixes : Canonical → Option String) (c : Canonical) (imports : List Import)
    (pathImports : String → Option String) : Prop :=
  ∀ name, pathImports name = (fileUnder disk inlinePackages c imports name).bind prefixes

/-- The new aliases are new identifiers, and claimed. -/
def Renamed (claimed : List (String × String)) (aliasRenames : String → Option String) : Prop :=
  ∀ name fresh, aliasRenames name = some fresh →
    fresh ≠ name ∧ dotted name = false ∧ dotted fresh = false ∧ (claimed.lookup fresh).isSome

/-- **A file that is finished.** -/
structure LoadedFile.Ok (prefixes : Canonical → Option String) (loaded : List Canonical)
    (claimed : List (String × String)) (u : LoadedFile) : Prop where
  parsed : disk.parse u.file = .ok u.source
  localNames : u.mangler.localNames = declaredNames u.source.program
  prefixed : prefixes u.file = some u.mangler.prefixText
  brought : Brought disk inlinePackages prefixes loaded u.file (importsOf u.source.program.items)
  pathed : Pathed disk inlinePackages prefixes u.file (importsOf u.source.program.items) u.mangler.pathImports
  renamed : Renamed claimed u.mangler.aliasRenames

/-- **The state of a load.** -/
structure Inv (st : LoaderState) : Prop where
  ok : ∀ u ∈ st.units, u.Ok disk inlinePackages st.prefixes st.loaded st.claimedAliases
  loaded : ∀ c, c ∈ st.loaded ↔ ∃ u ∈ st.units, u.file = c
  nodup : (st.units.map LoadedFile.file).Nodup
  apart : ∀ c ∈ st.inProgress, c ∉ st.loaded
  claimsPlain : ∀ name reference, st.claimedAliases.lookup name = some reference → dotted name = false

/-- The declarations of a merged program. -/
def declarationsOf (merged : List Merged) : List Merged := merged.filter fun e => (asImport e.item).isNone

/-- The imports of a merged program. -/
def keptOf (merged : List Merged) : List Import := merged.filterMap fun e => asImport e.item

/-- **What happened between two states**: which files were finished (all of a kind `P`), with the output and
the imports kept since. -/
structure Grew (P : Canonical → Prop) (st st' : LoaderState) (out : List Merged) (kept : List Import) :
    Prop where
  inProgress : st'.inProgress = st.inProgress
  loaded : ∀ c ∈ st.loaded, c ∈ st'.loaded
  units : ∃ finished, st'.units = st.units ++ finished ∧
    declarationsOf out = finished.flatMap LoadedFile.entries ∧ ∀ u ∈ finished, P u.file
  prefixes : ∀ c p, st.prefixes c = some p → st'.prefixes c = some p
  bare : ∀ c, st'.prefixes c = some "" → st.prefixes c = some ""
  claims : ∀ name reference, st.claimedAliases.lookup name = some reference →
    st'.claimedAliases.lookup name = some reference
  sound : ∀ i ∈ kept, st'.claimedAliases.lookup i.importAlias = some i.reference
  complete : ∀ name reference, st'.claimedAliases.lookup name = some reference →
    st.claimedAliases.lookup name = some reference ∨ ⟨reference, name⟩ ∈ kept

namespace Grew

variable {P : Canonical → Prop} {st st' st'' : LoaderState} {out out' : List Merged} {kept kept' : List Import}

theorem refl (P : Canonical → Prop) (st : LoaderState) : Grew P st st [] [] where
  inProgress := rfl
  loaded _ h := h
  units := ⟨[], by simp, rfl, by simp⟩
  prefixes _ _ h := h
  bare _ h := h
  claims _ _ h := h
  sound _ h := by simp at h
  complete _ _ h := .inl h

theorem trans (h : Grew P st st' out kept) (h' : Grew P st' st'' out' kept') :
    Grew P st st'' (out ++ out') (kept ++ kept') where
  inProgress := h'.inProgress.trans h.inProgress
  loaded c hc := h'.loaded c (h.loaded c hc)
  units := by
    obtain ⟨finished, hunits, hout, hP⟩ := h.units
    obtain ⟨finished', hunits', hout', hP'⟩ := h'.units
    refine ⟨finished ++ finished', by rw [hunits', hunits, List.append_assoc], ?_, ?_⟩
    · rw [flatMap_append, ← hout, ← hout', declarationsOf, declarationsOf, declarationsOf, filter_append]
    · intro u hu
      exact (mem_append.mp hu).elim (hP u) (hP' u)
  prefixes c p hc := h'.prefixes c p (h.prefixes c p hc)
  bare c hc := h.bare c (h'.bare c hc)
  claims name reference hc := h'.claims _ _ (h.claims _ _ hc)
  sound i hi := by
    obtain hi | hi := mem_append.mp hi
    · exact h'.claims _ _ (h.sound i hi)
    · exact h'.sound i hi
  complete name reference hc := by
    obtain hc | hc := h'.complete name reference hc
    · exact (h.complete name reference hc).imp_right (mem_append_left _)
    · exact .inr (mem_append_right _ hc)

theorem imp {Q : Canonical → Prop} (h : Grew P st st' out kept) (hPQ : ∀ c, P c → Q c) : Grew Q st st' out kept :=
  { h with
    units := by
      obtain ⟨finished, hunits, hout, hP⟩ := h.units
      exact ⟨finished, hunits, hout, fun u hu => hPQ _ (hP u hu)⟩ }

/-- Only the declarations of the output count, and which imports were kept. -/
theorem congr (h : Grew P st st' out kept) (hout : declarationsOf out' = declarationsOf out)
    (hkept : ∀ i, i ∈ kept' ↔ i ∈ kept) : Grew P st st' out' kept' :=
  { h with
    units := by
      obtain ⟨finished, hunits, hdecls, hP⟩ := h.units
      exact ⟨finished, hunits, hout.trans hdecls, hP⟩
    sound := fun i hi => h.sound i ((hkept i).mp hi)
    complete := fun name reference hc => (h.complete name reference hc).imp_right (hkept _).mpr }

end Grew

/-! ## What stays true -/

variable {prefixes : Canonical → Option String} {loaded : List Canonical} {imports : List Import} {name : String}

section Mono

variable {disk inlinePackages}

variable {prefixes' : Canonical → Option String}

variable {loaded' : List Canonical}

theorem Brought.mono {c : Canonical} (h : Brought disk inlinePackages prefixes loaded c imports)
    (hprefixes : ∀ c p, prefixes c = some p → prefixes' c = some p) (hloaded : ∀ c ∈ loaded, c ∈ loaded') :
    Brought disk inlinePackages prefixes' loaded' c imports := by
  intro i hi g hg
  obtain ⟨hmem, child, hchild, hne⟩ := h i hi g hg
  exact ⟨hloaded g hmem, child, hprefixes g child hchild, hne⟩

theorem exists_of_fileUnder {c g : Canonical} (h : fileUnder disk inlinePackages c imports name = some g) :
    ∃ i ∈ imports, i.importAlias = name ∧ importedFile disk inlinePackages c i = some g := by
  obtain ⟨i, hi, hfile⟩ := List.exists_of_findSome?_eq_some h
  split at hfile
  · next hname => exact ⟨i, mem_reverse.mp hi, hname, hfile⟩
  · simp at hfile

theorem Pathed.mono {c : Canonical} {pathImports : String → Option String}
    (h : Pathed disk inlinePackages prefixes c imports pathImports)
    (hbrought : Brought disk inlinePackages prefixes loaded c imports)
    (hprefixes : ∀ c p, prefixes c = some p → prefixes' c = some p) :
    Pathed disk inlinePackages prefixes' c imports pathImports := by
  intro name
  rw [h name]
  cases hfile : fileUnder disk inlinePackages c imports name with
  | none => rfl
  | some g =>
    obtain ⟨i, hi, _, hg⟩ := exists_of_fileUnder hfile
    obtain ⟨_, child, hchild, _⟩ := hbrought i hi g hg
    show prefixes g = prefixes' g
    rw [hchild, hprefixes g child hchild]

variable {claimed' : List (String × String)}

theorem Renamed.mono {claimed : List (String × String)} {aliasRenames : String → Option String}
    (h : Renamed claimed aliasRenames) (hclaims : ∀ name reference, claimed.lookup name = some reference →
      claimed'.lookup name = some reference) : Renamed claimed' aliasRenames := by
  intro name fresh hfresh
  obtain ⟨hne, hname, hplain, hsome⟩ := h name fresh hfresh
  obtain ⟨reference, hreference⟩ := isSome_iff_exists.mp hsome
  exact ⟨hne, hname, hplain, isSome_iff_exists.mpr ⟨reference, hclaims _ _ hreference⟩⟩

theorem LoadedFile.Ok.mono {claimed : List (String × String)} {u : LoadedFile}
    (h : u.Ok disk inlinePackages prefixes loaded claimed)
    (hprefixes : ∀ c p, prefixes c = some p → prefixes' c = some p) (hloaded : ∀ c ∈ loaded, c ∈ loaded')
    (hclaims : ∀ name reference, claimed.lookup name = some reference →
      claimed'.lookup name = some reference) : u.Ok disk inlinePackages prefixes' loaded' claimed' where
  parsed := h.parsed
  localNames := h.localNames
  prefixed := hprefixes _ _ h.prefixed
  brought := h.brought.mono hprefixes hloaded
  pathed := h.pathed.mono h.brought hprefixes
  renamed := h.renamed.mono hclaims

end Mono

/-! ## Fresh aliases -/

section Fresh

variable {claimed : List (String × String)} {base : String}

theorem aliasCandidates_nodup : (aliasCandidates claimed base).Nodup := by
  apply List.Nodup.map _ nodup_range'
  intro a b hab
  have hdigits : Nat.toDigits 10 a = Nat.toDigits 10 b := by
    have h := congrArg String.toList hab
    simpa [toString_eq_ofList_toDigits] using h
  calc a = Nat.ofDigitChars 10 (Nat.toDigits 10 a) 0 := ofDigitChars_ten_toDigits.symm
    _ = Nat.ofDigitChars 10 (Nat.toDigits 10 b) 0 := by rw [hdigits]
    _ = b := ofDigitChars_ten_toDigits

/-- There are more candidates than aliases: the search ends. -/
theorem freshAlias_spec : ∃ n : Nat, freshAlias claimed base = base ++ "__" ++ toString n ∧
    claimed.lookup (freshAlias claimed base) = none := by
  unfold freshAlias
  cases h : (aliasCandidates claimed base).find? fun candidate => (claimed.lookup candidate).isNone with
  | some fresh =>
    obtain ⟨n, _, rfl⟩ := List.mem_map.mp (List.mem_of_find?_eq_some h)
    have hfree := List.find?_some h
    exact ⟨n, rfl, isNone_iff_eq_none.mp hfree⟩
  | none =>
    have hall : aliasCandidates claimed base ⊆ claimed.map Prod.fst := by
      intro candidate hmem
      have hsome := List.find?_eq_none.mp h candidate hmem
      simp only [isNone_iff_eq_none] at hsome
      obtain ⟨reference, href⟩ := ne_none_iff_exists'.mp hsome
      obtain ⟨before, after, rfl, _⟩ := lookup_eq_some_iff.mp href
      simp
    have hle := (subperm_of_subset aliasCandidates_nodup hall).length_le
    simp [aliasCandidates] at hle

theorem freshAlias_ne : freshAlias claimed base ≠ base := by
  obtain ⟨n, heq, _⟩ := @freshAlias_spec claimed base
  intro h
  have hlength := congrArg (fun s => s.toList.length) (heq.symm.trans h)
  simp only [toList_append, List.length_append] at hlength
  have hline : ("__".toList).length = 2 := rfl
  omega

theorem dotted_freshAlias (h : dotted base = false) : dotted (freshAlias claimed base) = false := by
  obtain ⟨n, heq, _⟩ := @freshAlias_spec claimed base
  have hdigits : (toString n).toList = Nat.toDigits 10 n := by
    rw [toString_eq_ofList_toDigits, toList_ofList]
  rw [dotted_eq_false] at h ⊢
  rw [heq, toList_append, toList_append, mem_append, mem_append, hdigits]
  rintro ((hbase | hline) | hdigit)
  · exact h hbase
  · simp at hline
  · have hdot := Nat.isDigit_of_mem_toDigits (by decide : 0 < 10) (by decide : 10 ≤ 10) hdigit
    exact absurd hdot (by decide)

end Fresh

/-! ## Steps -/

section Steps

variable {disk inlinePackages} {P : Canonical → Prop} {st st' : LoaderState} {c : Canonical}

/-- `prefix_for` remembers what it gives. -/
theorem prefixFor_spec {p : String} (h : prefixFor disk st c = (p, st')) :
    Grew P st st' [] [] ∧ st'.prefixes c = some p ∧ st'.units = st.units ∧ st'.loaded = st.loaded ∧
      st'.claimedAliases = st.claimedAliases := by
  unfold prefixFor at h
  split at h
  · next q hq =>
    obtain ⟨rfl, rfl⟩ := Prod.mk.inj h
    exact ⟨.refl P st, hq, rfl, rfl, rfl⟩
  · next hnone =>
    obtain ⟨rfl, rfl⟩ := Prod.mk.inj h
    refine ⟨{ Grew.refl P st with prefixes := fun x p hx => ?_, bare := fun x hx => ?_ }, ?_, rfl, rfl, rfl⟩
    · have hne : x ≠ c := by
        rintro rfl
        simp [hnone] at hx
      simpa [Function.update, hne] using hx
    · by_cases hxc : x = c
      · subst hxc
        simp at hx
      · simpa [Function.update, hxc] using hx
    · simp

theorem Inv.of_prefixFor {p : String} (hinv : Inv disk inlinePackages st)
    (h : prefixFor disk st c = (p, st')) : Inv disk inlinePackages st' := by
  obtain ⟨hgrew, _, hunits, hloaded, hclaims⟩ := prefixFor_spec (P := fun _ => True) h
  refine ⟨?_, ?_, ?_, ?_, ?_⟩
  · intro u hu
    rw [hunits] at hu
    rw [hloaded, hclaims]
    exact (hinv.ok u hu).mono hgrew.prefixes (fun _ h => h) (fun _ _ h => h)
  · intro x
    rw [hloaded, hunits]
    exact hinv.loaded x
  · rw [hunits]
    exact hinv.nodup
  · intro x hx
    rw [hgrew.inProgress] at hx
    rw [hloaded]
    exact hinv.apart x hx
  · intro name reference
    rw [hclaims]
    exact hinv.claimsPlain name reference

variable {reference : String}

theorem lookup_cons_ne {claimed : List (String × String)} {x r : String}
    (hfree : claimed.lookup name = none) (hx : claimed.lookup x = some r) :
    List.lookup x ((name, reference) :: claimed) = some r := by
  have hne : (x == name) = false := by
    apply beq_false_of_ne
    rintro rfl
    simp [hfree] at hx
  rw [lookup_cons, hne]
  exact hx

/-- A claimed alias is one more. -/
theorem claim_spec (hfree : st.claimedAliases.lookup name = none) :
    Grew P st { st with claimedAliases := (name, reference) :: st.claimedAliases } [] [⟨reference, name⟩] :=
  { Grew.refl P st with
    claims := fun x r hx => lookup_cons_ne hfree hx
    sound := fun i hi => by
      obtain rfl := mem_singleton.mp hi
      simp
    complete := fun x r hx => by
      by_cases hxn : x = name
      · subst hxn
        obtain rfl : reference = r := by simpa using hx
        exact .inr (mem_singleton.mpr rfl)
      · have hne : (x == name) = false := beq_false_of_ne hxn
        rw [lookup_cons, hne] at hx
        exact .inl hx }

theorem Inv.claim (hinv : Inv disk inlinePackages st)
    (hfree : st.claimedAliases.lookup name = none) (hplain : dotted name = false) :
    Inv disk inlinePackages { st with claimedAliases := (name, reference) :: st.claimedAliases } where
  ok u hu := (hinv.ok u hu).mono (fun _ _ h => h) (fun _ h => h) fun _ _ h => lookup_cons_ne hfree h
  loaded := hinv.loaded
  nodup := hinv.nodup
  apart := hinv.apart
  claimsPlain x r hx := by
    by_cases hxn : x = name
    · rwa [hxn]
    · have hne : (x == name) = false := beq_false_of_ne hxn
      rw [lookup_cons, hne] at hx
      exact hinv.claimsPlain x r hx

variable (disk inlinePackages) in
/-- **The items of a file, up to some point.** -/
structure Visiting (c : Canonical) (st : LoaderState) (done : List Item) (w : Progress) : Prop where
  inv : Inv disk inlinePackages w.state
  grew : Grew (Reaches disk inlinePackages c) st w.state w.mergedChildren (w.stdImports ++ keptOf w.mergedChildren)
  mine : w.myItems = done.filter fun item => (asImport item).isNone
  brought : Brought disk inlinePackages w.state.prefixes w.state.loaded c (importsOf done)
  pathed : Pathed disk inlinePackages w.state.prefixes c (importsOf done) w.pathImports
  renamed : Renamed w.state.claimedAliases w.aliasRenames

theorem importsOf_append_import (done : List Item) (i : Import) :
    importsOf (done ++ [Item.importDecl i]) = importsOf done ++ [i] := by
  simp [importsOf, asImport]

theorem importsOf_append_other (done : List Item) {item : Item} (h : asImport item = none) :
    importsOf (done ++ [item]) = importsOf done := by
  simp [importsOf, h]

theorem fileUnder_append (imports : List Import) (i : Import) (name : String) :
    fileUnder disk inlinePackages c (imports ++ [i]) name =
      (if i.importAlias = name then importedFile disk inlinePackages c i else none).or
        (fileUnder disk inlinePackages c imports name) := by
  simp only [fileUnder, reverse_append, reverse_singleton, singleton_append, List.findSome?_cons]
  split
  · next heq => simp [heq]
  · next heq => simp [heq]

variable {i : Import}

theorem Brought.append (h : Brought disk inlinePackages prefixes loaded c imports)
    (hi : ∀ g, importedFile disk inlinePackages c i = some g →
      g ∈ loaded ∧ ∃ child, prefixes g = some child ∧ child ≠ "") :
    Brought disk inlinePackages prefixes loaded c (imports ++ [i]) := by
  intro j hj
  obtain hj | hj := mem_append.mp hj
  · exact h j hj
  · obtain rfl := mem_singleton.mp hj
    exact hi

variable {done : List Item} {w : Progress}

/-- A kept import claims its alias, or has another module's alias claimed for it. -/
theorem Visiting.keep (h : Visiting disk inlinePackages c st done w)
    (hi : importedFile disk inlinePackages c i = none) (hplain : dotted i.importAlias = false) :
    Visiting disk inlinePackages c st (done ++ [Item.importDecl i]) (keepImport w i) := by
  have hbrought : Brought disk inlinePackages w.state.prefixes w.state.loaded c
      (importsOf (done ++ [Item.importDecl i])) := by
    rw [importsOf_append_import]
    exact h.brought.append fun g hg => by simp [hi] at hg
  have hpathed : Pathed disk inlinePackages w.state.prefixes c (importsOf (done ++ [Item.importDecl i]))
      w.pathImports := by
    intro name
    rw [importsOf_append_import, fileUnder_append, hi]
    simpa using h.pathed name
  have hmine : w.myItems = (done ++ [Item.importDecl i]).filter fun item => (asImport item).isNone := by
    simpa [asImport] using h.mine
  unfold keepImport
  split
  · next claimed hclaimed =>
    split
    · next heq =>
      -- the same module has the alias already
      subst heq
      refine ⟨h.inv, ?_, hmine, hbrought, hpathed, h.renamed⟩
      refine { h.grew with sound := ?_, complete := ?_ }
      · intro j hj
        simp only [mem_append, mem_singleton] at hj
        obtain (hj | rfl) | hj := hj
        · exact h.grew.sound j (mem_append_left _ hj)
        · exact hclaimed
        · exact h.grew.sound j (mem_append_right _ hj)
      · intro name reference hname
        apply (h.grew.complete name reference hname).imp_right
        simp only [mem_append, mem_singleton]
        tauto
    · next hne =>
      -- another module has it
      obtain ⟨_, _, hfree⟩ := @freshAlias_spec w.state.claimedAliases i.importAlias
      have hfresh := @dotted_freshAlias w.state.claimedAliases i.importAlias hplain
      refine ⟨h.inv.claim hfree hfresh, ?_, hmine, hbrought, hpathed, ?_⟩
      · apply (h.grew.trans (claim_spec hfree)).congr (by simp)
        intro j
        simp only [mem_append, mem_singleton]
        tauto
      · intro name fresh hname
        by_cases heq : name = i.importAlias
        · subst heq
          obtain rfl : freshAlias w.state.claimedAliases i.importAlias = fresh := by simpa using hname
          exact ⟨freshAlias_ne, hplain, hfresh, by simp⟩
        · have hold : w.aliasRenames name = some fresh := by
            simpa [Function.update, heq] using hname
          exact h.renamed.mono (fun _ _ hx => lookup_cons_ne hfree hx) name fresh hold
  · next hfree =>
    refine ⟨h.inv.claim hfree hplain, ?_, hmine, hbrought, hpathed, ?_⟩
    · apply (h.grew.trans (claim_spec hfree)).congr (by simp)
      intro j
      simp only [mem_append, mem_singleton]
      tauto
    · exact h.renamed.mono fun _ _ hx => lookup_cons_ne hfree hx

variable (disk inlinePackages) in
/-- **What loading one file owes.** -/
def Good (loads : Loads) : Prop :=
  ∀ c st out st', loads c st = .ok (out, st') → Inv disk inlinePackages st →
    (∀ x, st.prefixes x = some "" → x ∈ st.inProgress ∨ x = c) →
      Inv disk inlinePackages st' ∧ c ∉ st.inProgress ∧ c ∈ st'.loaded ∧
        Grew (Reaches disk inlinePackages c) st st' out (keptOf out)

theorem Inv.rename (hinv : Inv disk inlinePackages st) (naming : Naming) :
    Inv disk inlinePackages { st with naming := naming } :=
  ⟨hinv.ok, hinv.loaded, hinv.nodup, hinv.apart, hinv.claimsPlain⟩

variable {loadChild : Loads}

/-- An import that brings a file in loads the file. -/
theorem Visiting.inline (hgood : Good disk inlinePackages loadChild)
    {w' : Progress} (h : Visiting disk inlinePackages c st done w)
    (hbare : ∀ x, st.prefixes x = some "" → x ∈ st.inProgress) {g : Canonical}
    (hi : importedFile disk inlinePackages c i = some g) (hbrings : Brings disk inlinePackages c g)
    (naming naming' : Naming) (hrun : inlineImport disk loadChild w { w.state with naming := naming } i g = .ok w') :
    Visiting disk inlinePackages c st (done ++ [Item.importDecl i])
      { w' with state := { w'.state with naming := naming' } } := by
  unfold inlineImport at hrun
  rcases hbegin : prefixFor disk { w.state with naming := naming } g with ⟨child, st₁⟩
  simp only [hbegin] at hrun
  cases hload : loadChild g st₁ with
  | error e => simp [hload, bind, Except.bind] at hrun
  | ok result =>
    obtain ⟨out, st₂⟩ := result
    simp only [hload, bind, Except.bind, pure, Except.pure, Except.ok.injEq] at hrun
    obtain ⟨hgrew₁, hchild, _, _, _⟩ := prefixFor_spec (P := Reaches disk inlinePackages c) hbegin
    have hinv₁ := (h.inv.rename naming).of_prefixFor hbegin
    have hprogress : st₁.inProgress = st.inProgress := hgrew₁.inProgress.trans h.grew.inProgress
    have hbare₁ : ∀ x, st₁.prefixes x = some "" → x ∈ st₁.inProgress := fun x hx =>
      hprogress ▸ hbare x (h.grew.bare x (hgrew₁.bare x hx))
    obtain ⟨hinv₂, hfree, hloaded, hgrew₂⟩ := hgood g st₁ out st₂ hload hinv₁ fun x hx => .inl (hbare₁ x hx)
    have hne : child ≠ "" := by
      rintro rfl
      exact hfree (hbare₁ g hchild)
    have hgrew : Grew (Reaches disk inlinePackages c) w.state st₂ out (keptOf out) := by
      have hgrew₁' : Grew (Reaches disk inlinePackages c) w.state st₁ [] [] :=
        ⟨hgrew₁.inProgress, hgrew₁.loaded, hgrew₁.units, hgrew₁.prefixes, hgrew₁.bare, hgrew₁.claims,
          hgrew₁.sound, hgrew₁.complete⟩
      exact hgrew₁'.trans (hgrew₂.imp fun x hx => Relation.ReflTransGen.head hbrings hx)
    subst hrun
    have hall : Grew (Reaches disk inlinePackages c) st st₂ (w.mergedChildren ++ out)
        (w.stdImports ++ keptOf (w.mergedChildren ++ out)) := by
      apply (h.grew.trans hgrew).congr rfl
      intro j
      simp only [keptOf, filterMap_append, mem_append]
      tauto
    refine ⟨hinv₂.rename naming', ?_, ?_, ?_, ?_, ?_⟩
    · exact ⟨hall.inProgress, hall.loaded, hall.units, hall.prefixes, hall.bare, hall.claims, hall.sound,
        hall.complete⟩
    · simpa [asImport] using h.mine
    · rw [importsOf_append_import]
      apply (h.brought.mono hgrew.prefixes hgrew.loaded).append
      intro g' hg'
      obtain rfl : g = g' := some.inj (hi.symm.trans hg')
      exact ⟨hloaded, child, hgrew₂.prefixes g child hchild, hne⟩
    · intro name
      rw [importsOf_append_import, fileUnder_append, hi]
      by_cases hname : i.importAlias = name
      · subst hname
        simpa using (hgrew₂.prefixes g child hchild).symm
      · have hold := h.pathed.mono h.brought hgrew.prefixes name
        simpa [hname, Function.update, Ne.symm hname] using hold
    · exact h.renamed.mono hgrew.claims

theorem eq_ok_of_fromDisk {α : Type} {x : Except FileError α} {a : α} (h : fromDisk x = .ok a) : x = .ok a := by
  cases x with
  | ok b =>
    obtain rfl : b = a := Except.ok.inj h
    rfl
  | error e => exact nomatch h

/-- From a bind that succeeds, its parts. -/
theorem exists_of_bind_ok {ε α β : Type} {x : Except ε α} {f : α → Except ε β} {b : β}
    (h : (x >>= f) = .ok b) : ∃ a, x = .ok a ∧ f a = .ok b := by
  cases x with
  | ok a => exact ⟨a, rfl, h⟩
  | error e => exact nomatch h

theorem Visiting.step (hgood : Good disk inlinePackages loadChild)
    {w' : Progress} (h : Visiting disk inlinePackages c st done w)
    (hbare : ∀ x, st.prefixes x = some "" → x ∈ st.inProgress) {source : SourceFile}
    (hparse : disk.parse c = .ok source) {item : Item} (hitem : item ∈ source.program.items)
    (hrun : visitItem disk inlinePackages loadChild c w item = .ok w') :
    Visiting disk inlinePackages c st (done ++ [item]) w' := by
  have hother : asImport item = none → w' = { w with myItems := w.myItems ++ [item] } →
      Visiting disk inlinePackages c st (done ++ [item]) w' := by
    rintro hnone rfl
    refine ⟨h.inv, h.grew, ?_, ?_, ?_, h.renamed⟩
    · show w.myItems ++ [item] = _
      rw [filter_append, ← h.mine]
      simp [hnone]
    · rw [importsOf_append_other done hnone]
      exact h.brought
    · rw [importsOf_append_other done hnone]
      exact h.pathed
  cases item with
  | typeDecl td => exact hother rfl (Except.ok.inj hrun).symm
  | fnDecl fd => exact hother rfl (Except.ok.inj hrun).symm
  | importDecl i =>
    have hi : i ∈ importsOf source.program.items := mem_filterMap.mpr ⟨_, hitem, rfl⟩
    unfold visitItem at hrun
    by_cases hpath : isPathImport i.reference = true
    · simp only [hpath, if_true] at hrun
      obtain ⟨g, hresolve, hrun⟩ := exists_of_bind_ok hrun
      have hfile : importedFile disk inlinePackages c i = some g := by
        simp [importedFile, hpath, eq_ok_of_fromDisk hresolve, Except.toOption]
      exact h.inline hgood hbare hfile ⟨source, hparse, i, hi, hfile⟩ w.state.naming w'.state.naming hrun
    · simp only [hpath] at hrun
      rcases hsplit : (if inlinePackages then splitPackageImport i.reference else none) with _ | ⟨pkg, module⟩
      · simp only [hsplit] at hrun
        obtain rfl := (Except.ok.inj hrun).symm
        apply h.keep
        · simp [importedFile, hpath, hsplit]
        · exact source.parsed.imported i hi
      · simp only [hsplit] at hrun
        obtain ⟨g, hresolve, hrun⟩ := exists_of_bind_ok hrun
        have hfile : importedFile disk inlinePackages c i = some g := by
          simp [importedFile, hpath, hsplit, eq_ok_of_fromDisk hresolve, Except.toOption]
        obtain ⟨w₁, hinline, hrun⟩ := exists_of_bind_ok hrun
        obtain rfl := (Except.ok.inj hrun).symm
        have hbrings : Brings disk inlinePackages c g := ⟨source, hparse, i, hi, hfile⟩
        cases hroot : disk.packageRoot g with
        | none =>
          simp only [hroot] at hinline
          exact h.inline hgood hbare hfile hbrings w.state.naming w.state.naming hinline
        | some root =>
          simp only [hroot] at hinline
          exact h.inline hgood hbare hfile hbrings ⟨some root, some pkg⟩ w.state.naming hinline

/-- The run of a file: every item is one step. -/
theorem Visiting.run (hgood : Good disk inlinePackages loadChild)
    (hbare : ∀ x, st.prefixes x = some "" → x ∈ st.inProgress) {source : SourceFile}
    (hparse : disk.parse c = .ok source) (items : List Item) :
    ∀ {done : List Item} {w w' : Progress}, Visiting disk inlinePackages c st done w →
      (∀ item ∈ items, item ∈ source.program.items) →
        items.foldlM (visitItem disk inlinePackages loadChild c) w = .ok w' →
          Visiting disk inlinePackages c st (done ++ items) w' := by
  induction items with
  | nil =>
    intro done w w' h _ hrun
    obtain rfl := Except.ok.inj hrun
    rwa [append_nil]
  | cons item items ih =>
    intro done w w' h hitems hrun
    rw [foldlM_cons] at hrun
    obtain ⟨w₁, hstep, hrun⟩ := exists_of_bind_ok hrun
    have h₁ := h.step hgood hbare hparse (hitems item mem_cons_self) hstep
    have h₂ := ih h₁ (fun x hx => hitems x (mem_cons_of_mem _ hx)) hrun
    rwa [List.append_assoc] at h₂

end Steps

end LexLang.Loader
