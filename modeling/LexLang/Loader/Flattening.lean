/-
# LexLang.Loader.Flattening — when a merged program keeps the scopes of its files

A merged program keeps the scopes of its files if every occurrence in it denotes what the same occurrence
denotes in its own file, and each declaration is there once, under a name of its own (`Preserves`). What
that takes is said of the files, their prefixes and the aliases (`Hygienic`), one occurrence at a time.
-/
import LexLang.Loader.Hygiene
import LexLang.Loader.Loaded
import Mathlib.Data.List.TakeWhile

namespace LexLang.Loader

open LexLang.Syntax
open LexLang.Ast (isConstructorName unqualified)
open List Option

/-! ## The property -/

section Property

variable (disk : Disk) (inlinePackages : Bool)

def declarationsIn (c : Canonical) : List Item :=
  match disk.parse c with
  | .ok source => source.program.items.filter fun item => (asImport item).isNone
  | .error _ => []

/-- **A merged program keeps the scopes of its files.** -/
structure Preserves (entries : List Canonical) (merged : List Merged) : Prop where
  /-- The declarations are those of the files that the entries reach, each once. -/
  once : ∃ order : List Canonical, order.Nodup ∧
    (∀ c, c ∈ order ↔ ∃ entry ∈ entries, Reaches disk inlinePackages entry c) ∧
      (declarationsOf merged).map (fun e => (e.file, e.source)) =
        order.flatMap fun c => (declarationsIn disk c).map fun item => (c, item)
  /-- A name is the name of one declaration. -/
  distinct : ∀ e ∈ declarationsOf merged, ∀ e' ∈ declarationsOf merged,
    declaredName e.item = declaredName e'.item → e.origin = e'.origin
  /-- Every occurrence denotes what it denotes in its file. -/
  denotes : ∀ e ∈ declarationsOf merged, ∀ source, disk.parse e.file = .ok source →
    (itemOccurrences e.item).map (mergedScope merged).resolve =
      (itemOccurrences e.source).map (fileScope disk inlinePackages e.file source.program).resolve

end Property

/-! ## The condition -/

/-- The name of a declaration of a file, in the merged program. -/
def LoadedFile.declares (u : LoadedFile) (x : String) : Option Origin :=
  ((declaredNames u.source.program).find? fun name => u.mangler.qualify name = x).map fun name => (u.file, name)

/-- **The scope that the prefixes and the claimed aliases make.** -/
def tableScope (st : LoaderState) : Scope where
  decl x := st.units.findSome? fun u => u.declares x
  via name := (st.claimedAliases.lookup name).map .module

/-- Files with one prefix share no name. -/
def Apart (st : LoaderState) : Prop :=
  ∀ u ∈ st.units, ∀ u' ∈ st.units, u.mangler.prefixText = u'.mangler.prefixText → u.file ≠ u'.file →
    ∀ name ∈ declaredNames u.source.program, name ∉ declaredNames u'.source.program

/-- **What the files have to be like.** -/
structure Hygienic (disk : Disk) (inlinePackages : Bool) (st : LoaderState) : Prop where
  apart : Apart st
  fine : ∀ u ∈ st.units, ∀ item ∈ u.source.program.items, ∀ o ∈ itemOccurrences item,
    Fine (tableScope st) (fileScope disk inlinePackages u.file u.source.program) u.mangler o

/-! ## Names in the merged program -/

variable {name : String}

theorem unqualified_eq_self (h : dotted name = false) : unqualified name = name := by
  have hall : ∀ c ∈ name.toList.reverse, decide (c ≠ '.') = true := fun c hc =>
    decide_eq_true fun heq => dotted_eq_false.mp h (heq ▸ mem_reverse.mp hc)
  unfold unqualified
  rw [takeWhile_eq_self_iff.mpr hall, reverse_reverse, String.ofList_toList]

theorem Mangler.qualify_inj {m m' : Mangler} {name' : String} (hname : dotted name = false)
    (hname' : dotted name' = false) (h : m.qualify name = m'.qualify name') :
    m.prefixText = m'.prefixText ∧ name = name' := by
  have hsame : name = name' := by
    have hlast : ∀ (m : Mangler) {name : String}, dotted name = false →
        unqualified (m.qualify name) = name := by
      intro m name hname
      unfold qualify
      split
      · exact unqualified_eq_self hname
      · rw [unqualified_append, unqualified_eq_self hname]
    rw [← hlast m hname, h, hlast m' hname']
  subst hsame
  refine ⟨?_, rfl⟩
  obtain ⟨hp, heq⟩ | ⟨hp, hdot⟩ := m.qualify_eq_or_dotted name
  · obtain ⟨hp', _⟩ | ⟨_, hdot'⟩ := m'.qualify_eq_or_dotted name
    · rw [hp, hp']
    · rw [← h, heq, hname] at hdot'
      simp at hdot'
  · obtain ⟨_, heq'⟩ | ⟨hp', _⟩ := m'.qualify_eq_or_dotted name
    · rw [h, heq', hname] at hdot
      simp at hdot
    · unfold qualify at h
      rw [if_neg hp, if_neg hp'] at h
      apply String.toList_injective
      have hlist := congrArg String.toList h
      simpa using hlist

/-- A declaration has a name in the merged program. -/
def Names (st : LoaderState) (x : String) (origin : Origin) : Prop :=
  ∃ u ∈ st.units, ∃ name ∈ declaredNames u.source.program, u.mangler.qualify name = x ∧ origin = (u.file, name)

section Facts

variable {disk : Disk} {inlinePackages : Bool} {st : LoaderState}

variable {u : LoadedFile}

theorem Inv.unit_eq (hinv : Inv disk inlinePackages st) {u' : LoadedFile} (hu : u ∈ st.units)
    (hu' : u' ∈ st.units) (h : u.file = u'.file) : u = u' :=
  inj_on_of_nodup_map hinv.nodup hu hu' h

variable {x : String} {origin : Origin}

theorem Names.unique (hapart : Apart st) {origin' : Origin} (h : Names st x origin)
    (h' : Names st x origin') : origin = origin' := by
  obtain ⟨u, hu, name, hname, rfl, rfl⟩ := h
  obtain ⟨u', hu', name', hname', heq, rfl⟩ := h'
  obtain ⟨hbegin, rfl⟩ := Mangler.qualify_inj (u'.source.parsed.declared name' hname')
    (u.source.parsed.declared name hname) heq
  by_cases hfile : u.file = u'.file
  · rw [hfile]
  · exact absurd hname' (hapart u hu u' hu' hbegin.symm hfile name' hname)

theorem tableScope_decl (hapart : Apart st) : (tableScope st).decl x = some origin ↔ Names st x origin := by
  have hsound : ∀ origin, (tableScope st).decl x = some origin → Names st x origin := by
    intro origin h
    obtain ⟨u, hu, hdeclares⟩ := List.exists_of_findSome?_eq_some h
    obtain ⟨name, hfind, rfl⟩ := map_eq_some_iff.mp hdeclares
    exact ⟨u, hu, name, List.mem_of_find?_eq_some hfind, by simpa using List.find?_some hfind, rfl⟩
  refine ⟨hsound origin, fun h => ?_⟩
  cases hfound : (tableScope st).decl x with
  | some origin' => rw [(hsound origin' hfound).unique hapart h]
  | none =>
    obtain ⟨u, hu, name, hname, hx, _⟩ := h
    have hnone := List.findSome?_eq_none_iff.mp hfound u hu
    rw [LoadedFile.declares, map_eq_none_iff, List.find?_eq_none] at hnone
    exact absurd (decide_eq_true hx) (hnone name hname)

theorem declaredName_isNone_asImport {item : Item} (h : declaredName item = some name) :
    (asImport item).isNone = true := by
  cases item with
  | importDecl i => simp [declaredName] at h
  | typeDecl td => rfl
  | fnDecl fd => rfl

variable {e : Merged}

theorem declaredName_mangled {m : Mangler} {header : List String}
    (h : e.item = m.mangleItem e.source ∨ e.item = attachHeader header (m.mangleItem e.source)) :
    declaredName e.item = (declaredName e.source).map m.qualify := by
  obtain h | h := h
  all_goals
    rw [h]
    cases e.source
    all_goals rfl

theorem itemOccurrences_attachHeader (header : List String) (item : Item) :
    itemOccurrences (attachHeader header item) = itemOccurrences item := by
  cases item <;> rfl

/-- The name of an entry of a file, and what it was made from. -/
theorem LoadedFile.name_of_mem_entries (he : e ∈ u.entries) :
    ∃ name ∈ declaredNames u.source.program, declaredName e.item = some (u.mangler.qualify name) ∧
      e.origin = some (u.file, name) := by
  obtain ⟨hfile, hsource, header, hitem⟩ := LoadedFile.mem_entries he
  obtain ⟨hmem, hnone⟩ := mem_filter.mp hsource
  have hname : ∃ name, declaredName e.source = some name := by
    cases hsrc : e.source with
    | importDecl i => simp [hsrc, asImport] at hnone
    | typeDecl td => exact ⟨td.name, rfl⟩
    | fnDecl fd => exact ⟨fd.name, rfl⟩
  obtain ⟨name, hname⟩ := hname
  refine ⟨name, mem_filterMap.mpr ⟨_, hmem, hname⟩, ?_, ?_⟩
  · rw [declaredName_mangled hitem, hname]
    rfl
  · rw [Merged.origin, hname, hfile]
    rfl

theorem attachToFirst_sources (header : List String) (es : List Merged) :
    (attachToFirst header es).map (fun e => (e.file, e.source)) = es.map fun e => (e.file, e.source) := by
  cases es <;> rfl

theorem LoadedFile.entries_sources (u : LoadedFile) :
    u.entries.map (fun e => (e.file, e.source)) = u.declarations.map fun item => (u.file, item) := by
  rw [entries, attachToFirst_sources, List.map_map]
  rfl

theorem LoadedFile.exists_entry {item : Item} (h : item ∈ u.declarations) : ∃ e ∈ u.entries, e.source = item := by
  have hmem : (u.file, item) ∈ u.entries.map fun e => (e.file, e.source) := by
    rw [u.entries_sources]
    exact List.mem_map_of_mem h
  obtain ⟨e, he, heq⟩ := List.mem_map.mp hmem
  exact ⟨e, he, congrArg Prod.snd heq⟩

variable {entries : List Canonical} {merged : List Merged}

variable (F : Flattened disk inlinePackages entries merged st)
include F

theorem Flattened.exists_unit (he : e ∈ declarationsOf merged) : ∃ u ∈ st.units, e ∈ u.entries := by
  rw [F.declarations] at he
  exact mem_flatMap.mp he

theorem Flattened.mem_declarationsOf (hu : u ∈ st.units) (he : e ∈ u.entries) : e ∈ declarationsOf merged := by
  rw [F.declarations]
  exact mem_flatMap.mpr ⟨u, hu, he⟩

theorem Flattened.mergedScope_decl (hapart : Apart st)
     : (mergedScope merged).decl x = some origin ↔ Names st x origin := by
  have hsound : ∀ e ∈ merged, declaredName e.item = some x →
      ∃ origin, e.origin = some origin ∧ Names st x origin := by
    intro e he hx
    have hdecl : e ∈ declarationsOf merged := mem_filter.mpr ⟨he, declaredName_isNone_asImport hx⟩
    obtain ⟨u, hu, hentry⟩ := F.exists_unit hdecl
    obtain ⟨name, hname, hitem, horigin⟩ := LoadedFile.name_of_mem_entries hentry
    refine ⟨_, horigin, u, hu, name, hname, ?_, rfl⟩
    exact some.inj (hitem.symm.trans hx)
  have hread : ∀ origin, (mergedScope merged).decl x = some origin → Names st x origin := by
    intro origin h
    obtain ⟨e, hfind, horigin⟩ := bind_eq_some_iff.mp h
    obtain ⟨origin', horigin', hnames⟩ := hsound e (List.mem_of_find?_eq_some hfind)
      (by simpa using List.find?_some hfind)
    rwa [some.inj (horigin.symm.trans horigin')]
  refine ⟨hread origin, fun h => ?_⟩
  cases hfound : (mergedScope merged).decl x with
  | some origin' => rw [(hread origin' hfound).unique hapart h]
  | none =>
    obtain ⟨u, hu, name, hname, hx, _⟩ := h
    obtain ⟨item, hitem, hdeclared⟩ := mem_filterMap.mp hname
    obtain ⟨e, hentry, rfl⟩ := LoadedFile.exists_entry
      (mem_filter.mpr ⟨hitem, declaredName_isNone_asImport hdeclared⟩)
    obtain ⟨_, _, header, hmangled⟩ := LoadedFile.mem_entries hentry
    have hmem : e ∈ merged := mem_of_mem_filter (F.mem_declarationsOf hu hentry)
    have hxitem : declaredName e.item = some x := by
      rw [declaredName_mangled hmangled, hdeclared, map_some, hx]
    have hsome : (merged.find? fun e => declaredName e.item = some x).isSome :=
      List.find?_isSome.mpr ⟨e, hmem, decide_eq_true hxitem⟩
    obtain ⟨e', hfind⟩ := isSome_iff_exists.mp hsome
    obtain ⟨origin', horigin', _⟩ := hsound e' (List.mem_of_find?_eq_some hfind)
      (by simpa using List.find?_some hfind)
    simp [mergedScope, hfind, horigin'] at hfound

variable {imports : List Import}

variable {i : Import}

omit F in
theorem importUnder_some (h : importUnder imports name = some i) : i ∈ imports ∧ i.importAlias = name :=
  ⟨mem_reverse.mp (List.mem_of_find?_eq_some h), by simpa using List.find?_some h⟩

omit F in
theorem importUnder_isSome (h : i ∈ imports) : ∃ j, importUnder imports i.importAlias = some j := by
  apply isSome_iff_exists.mp
  exact List.find?_isSome.mpr ⟨i, mem_reverse.mpr h, by simp⟩

/-- **The scope of the merged program is that of the tables.** -/
theorem Flattened.mergedScope_eq (hapart : Apart st) : mergedScope merged = tableScope st := by
  have hdecl : (mergedScope merged).decl = (tableScope st).decl := by
    funext x
    apply Option.ext
    intro origin
    rw [F.mergedScope_decl hapart, tableScope_decl hapart]
  have hvia : (mergedScope merged).via = (tableScope st).via := by
    funext name
    show (importUnder (keptOf merged) name).map _ = (st.claimedAliases.lookup name).map _
    cases hfound : importUnder (keptOf merged) name with
    | some i =>
      obtain ⟨hi, rfl⟩ := importUnder_some hfound
      rw [(F.claimed i).mp hi]
      rfl
    | none =>
      cases hclaimed : st.claimedAliases.lookup name with
      | none => rfl
      | some reference =>
        obtain ⟨j, hj⟩ := importUnder_isSome ((F.claimed ⟨reference, name⟩).mpr hclaimed)
        rw [hj] at hfound
        simp at hfound
  rcases hm : mergedScope merged with ⟨decl, via⟩
  rcases ht : tableScope st with ⟨decl', via'⟩
  rw [hm, ht] at hdecl hvia
  obtain rfl : decl = decl' := hdecl
  obtain rfl : via = via' := hvia
  rfl

/-! ## The scope of a file and that of the program -/

omit F in
/-- The last import under an alias, where it brings a file in. -/
theorem fileUnder_of_importUnder {c g : Canonical}
    (h : importUnder imports name = some i) (hfile : importedFile disk inlinePackages c i = some g) :
    fileUnder disk inlinePackages c imports name = some g := by
  unfold importUnder at h
  unfold fileUnder
  generalize imports.reverse = latest at h ⊢
  induction latest with
  | nil => simp at h
  | cons j js ih =>
    rw [List.find?_cons] at h
    rw [List.findSome?_cons]
    by_cases hname : j.importAlias = name
    · obtain rfl : j = i := by simpa [hname] using h
      simp [hname, hfile]
    · rw [if_neg hname]
      apply ih
      simpa [hname] using h

theorem Flattened.linked (hapart : Apart st) (hu : u ∈ st.units) :
    Linked (tableScope st) (fileScope disk inlinePackages u.file u.source.program) u.mangler u.file := by
  have hok := F.inv.ok u hu
  have hplain : ∀ name, dotted name = true → fileUnder disk inlinePackages u.file
      (importsOf u.source.program.items) name = none := by
    intro name hdot
    cases hfile : fileUnder disk inlinePackages u.file (importsOf u.source.program.items) name with
    | none => rfl
    | some g =>
      obtain ⟨i, hi, rfl, _⟩ := exists_of_fileUnder hfile
      simp [u.source.parsed.imported i hi] at hdot
  refine ⟨⟨?_, ?_, ?_⟩, ?_, ?_, ?_, ?_, ?_, ?_, ?_, ?_⟩
  · intro name hname
    exact u.source.parsed.declared name (hok.localNames ▸ hname)
  · intro name hdot
    rw [hok.pathed name, hplain name hdot]
    rfl
  · intro name hdot
    cases hfresh : u.mangler.aliasRenames name with
    | none => rfl
    | some fresh =>
      obtain ⟨_, hname, _⟩ := hok.renamed name fresh hfresh
      simp [hname] at hdot
  · intro name
    rw [hok.localNames]
    rfl
  · intro name hname
    exact (tableScope_decl hapart).mpr ⟨u, hu, name, hok.localNames ▸ hname, rfl, rfl⟩
  · intro x name hx
    obtain ⟨u', hu', name', _, rfl, heq⟩ := (tableScope_decl hapart).mp hx
    obtain ⟨hfile, rfl⟩ := Prod.mk.inj heq
    rw [F.inv.unit_eq hu hu' hfile]
  · intro name hdot
    cases hclaimed : st.claimedAliases.lookup name with
    | none => simp [tableScope, hclaimed]
    | some reference =>
      have hname := F.inv.claimsPlain name reference hclaimed
      simp [hname] at hdot
  · intro name v hv
    obtain ⟨reference, _, rfl⟩ := map_eq_some_iff.mp hv
    exact ⟨reference, rfl⟩
  · intro head fresh hfresh
    obtain ⟨hne, _, hfreshPlain, hsome⟩ := hok.renamed head fresh hfresh
    exact ⟨hne, hfreshPlain, by simpa [tableScope] using hsome⟩
  · intro head hsome
    cases hfile : fileUnder disk inlinePackages u.file (importsOf u.source.program.items) head with
    | none => simp [hok.pathed head, hfile] at hsome
    | some g =>
      obtain ⟨i, hi, rfl, _⟩ := exists_of_fileUnder hfile
      obtain ⟨j, hj⟩ := importUnder_isSome hi
      have hvia : (fileScope disk inlinePackages u.file u.source.program).via i.importAlias =
          some (viaOf disk inlinePackages u.file j) := congrArg (Option.map _) hj
      simp [hvia]
  · intro head g declares hvia
    obtain ⟨i, hi, hviaOf⟩ := map_eq_some_iff.mp hvia
    obtain ⟨hmem, _⟩ := importUnder_some hi
    unfold viaOf at hviaOf
    cases hfile : importedFile disk inlinePackages u.file i with
    | none => simp [hfile] at hviaOf
    | some g' =>
      simp only [hfile, Via.file.injEq] at hviaOf
      obtain ⟨rfl, rfl⟩ := hviaOf
      obtain ⟨hloaded, child, hchild, hne⟩ := hok.brought i hmem g' hfile
      -- the file behind the alias is a unit of its own, under a prefix
      obtain ⟨u', hu', rfl⟩ := (F.inv.loaded g').mp hloaded
      have hok' := F.inv.ok u' hu'
      have hbegin : u'.mangler.prefixText = child := some.inj (hok'.prefixed.symm.trans hchild)
      have hnames : namesOf disk u'.file = declaredNames u'.source.program := by
        simp [namesOf, hok'.parsed]
      refine ⟨child, ?_, ?_, ?_⟩
      · have hunder : fileUnder disk inlinePackages u.file (importsOf u.source.program.items) head =
            some u'.file := fileUnder_of_importUnder hi hfile
        rw [hok.pathed head, hunder]
        exact hchild
      · intro name hname
        refine (tableScope_decl hapart).mpr ⟨u', hu', name, hnames ▸ hname, ?_, rfl⟩
        rw [Mangler.qualify, hbegin, if_neg hne]
      · intro x name hx
        obtain ⟨v, hv, name', _, rfl, heq⟩ := (tableScope_decl hapart).mp hx
        obtain rfl : v = u' := F.inv.unit_eq hv hu' (congrArg Prod.fst heq).symm
        rw [Mangler.qualify, hbegin, if_neg hne]
        exact dotted_append _ _

/-! ## The exact condition -/

/-- One declaration of a file. -/
theorem Flattened.denotes_iff (hapart : Apart st)
    (hu : u ∈ st.units) (he : e ∈ u.entries) : (itemOccurrences e.item).map (mergedScope merged).resolve =
        (itemOccurrences e.source).map (fileScope disk inlinePackages u.file u.source.program).resolve ↔
      ∀ o ∈ itemOccurrences e.source,
        Fine (tableScope st) (fileScope disk inlinePackages u.file u.source.program) u.mangler o := by
  have L := F.linked hapart hu
  obtain ⟨_, hsource, header, hitem⟩ := LoadedFile.mem_entries he
  have hoccurrences : itemOccurrences e.item = (itemOccurrences e.source).map u.mangler.rewrite := by
    obtain hitem | hitem := hitem
    · rw [hitem, Mangler.itemOccurrences_mangle L.plain]
    · rw [hitem, itemOccurrences_attachHeader, Mangler.itemOccurrences_mangle L.plain]
  rw [hoccurrences, List.map_map, F.mergedScope_eq hapart, map_inj_left]
  apply forall₂_congr
  intro o ho
  exact L.resolve_rewrite_iff (u.source.parsed.bound e.source (mem_of_mem_filter hsource) o ho)

theorem Flattened.once : ∃ order : List Canonical, order.Nodup ∧
      (∀ c, c ∈ order ↔ ∃ entry ∈ entries, Reaches disk inlinePackages entry c) ∧
        (declarationsOf merged).map (fun e => (e.file, e.source)) =
          order.flatMap fun c => (declarationsIn disk c).map fun item => (c, item) := by
  refine ⟨st.units.map LoadedFile.file, F.inv.nodup, F.files, ?_⟩
  rw [F.declarations, map_flatMap, flatMap_map]
  apply flatMap_congr
  intro u hu
  rw [u.entries_sources]
  simp [declarationsIn, (F.inv.ok u hu).parsed, LoadedFile.declarations]

theorem Flattened.apart_iff : (∀ e ∈ declarationsOf merged, ∀ e' ∈ declarationsOf merged,
      declaredName e.item = declaredName e'.item → e.origin = e'.origin) ↔ Apart st := by
  constructor
  · intro h u hu u' hu' hbegin hfile name hname hname'
    -- both files have an entry of that name
    have hentry : ∀ {v : LoadedFile}, v ∈ st.units → name ∈ declaredNames v.source.program →
        ∃ e ∈ declarationsOf merged, declaredName e.item = some (v.mangler.qualify name) ∧
          e.origin = some (v.file, name) := by
      intro v hv hmem
      obtain ⟨item, hitem, hdeclared⟩ := mem_filterMap.mp hmem
      obtain ⟨e, he, rfl⟩ := LoadedFile.exists_entry
        (mem_filter.mpr ⟨hitem, declaredName_isNone_asImport hdeclared⟩)
      obtain ⟨hvfile, _, header, hmangled⟩ := LoadedFile.mem_entries he
      refine ⟨e, F.mem_declarationsOf hv he, ?_, ?_⟩
      · rw [declaredName_mangled hmangled, hdeclared, map_some]
      · rw [Merged.origin, hdeclared, hvfile, map_some]
    obtain ⟨e, he, hitem, horigin⟩ := hentry hu hname
    obtain ⟨e', he', hitem', horigin'⟩ := hentry hu' hname'
    have hsame : u.mangler.qualify name = u'.mangler.qualify name := by
      simp [Mangler.qualify, hbegin]
    have heq := h e he e' he' (by rw [hitem, hitem', hsame])
    rw [horigin, horigin'] at heq
    exact hfile (congrArg Prod.fst (some.inj heq))
  · intro hapart e he e' he' hsame
    obtain ⟨u, hu, hentry⟩ := F.exists_unit he
    obtain ⟨u', hu', hentry'⟩ := F.exists_unit he'
    obtain ⟨name, hname, hitem, horigin⟩ := LoadedFile.name_of_mem_entries hentry
    obtain ⟨name', hname', hitem', horigin'⟩ := LoadedFile.name_of_mem_entries hentry'
    have hx : u'.mangler.qualify name' = u.mangler.qualify name :=
      some.inj (hitem'.symm.trans (hsame.symm.trans hitem))
    have h : Names st (u.mangler.qualify name) (u.file, name) := ⟨u, hu, name, hname, rfl, rfl⟩
    have h' : Names st (u.mangler.qualify name) (u'.file, name') := ⟨u', hu', name', hname', hx, rfl⟩
    rw [horigin, horigin', h.unique hapart h']

/-- **A load keeps the scopes of its files exactly if the files are hygienic.** -/
theorem Flattened.preserves_iff : Preserves disk inlinePackages entries merged ↔ Hygienic disk inlinePackages st := by
  constructor
  · intro h
    have hapart := F.apart_iff.mp h.distinct
    refine ⟨hapart, fun u hu item hitem o ho => ?_⟩
    by_cases himport : (asImport item).isNone = true
    · obtain ⟨e, he, rfl⟩ := LoadedFile.exists_entry (mem_filter.mpr ⟨hitem, himport⟩)
      have hfile := (LoadedFile.mem_entries he).1
      have hdenotes := h.denotes e (F.mem_declarationsOf hu he) u.source (hfile ▸ (F.inv.ok u hu).parsed)
      rw [hfile] at hdenotes
      exact (F.denotes_iff hapart hu he).mp hdenotes o ho
    · -- an import has no occurrences
      cases item with
      | importDecl i => simp [itemOccurrences] at ho
      | typeDecl td => simp [asImport] at himport
      | fnDecl fd => simp [asImport] at himport
  · intro h
    refine ⟨F.once, F.apart_iff.mpr h.apart, fun e he source hparse => ?_⟩
    obtain ⟨u, hu, hentry⟩ := F.exists_unit he
    obtain ⟨hfile, hsource, _⟩ := LoadedFile.mem_entries hentry
    rw [hfile] at hparse ⊢
    obtain rfl : u.source = source := Except.ok.inj ((F.inv.ok u hu).parsed.symm.trans hparse)
    apply (F.denotes_iff h.apart hu hentry).mpr
    exact h.fine u hu e.source (mem_of_mem_filter hsource)

end Facts

end LexLang.Loader
