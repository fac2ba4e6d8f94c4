/-
# LexLang.Loader.Loaded — what a load has done

The invariant of `Visit` over a whole load (`load_good`), and over the two entry points: the files that
were loaded are those that the entries reach, each once; the declarations of the merged program are theirs;
and its imports are the aliases that were claimed.
-/
import LexLang.Loader.Visit

namespace LexLang.Loader

open LexLang.Syntax
open List

/-! ## The output of one file -/

@[simp] theorem asImport_attachHeader (header : List String) (item : Item) :
    asImport (attachHeader header item) = asImport item := by
  cases item <;> rfl

@[simp] theorem asImport_mangleItem (m : Mangler) (item : Item) : (asImport (m.mangleItem item)) = asImport item := by
  cases item <;> rfl

variable {e : Merged}

theorem mem_attachToFirst {header : List String} {es : List Merged} (h : e ∈ attachToFirst header es) :
    ∃ e' ∈ es, e.file = e'.file ∧ e.source = e'.source ∧
      (e.item = e'.item ∨ e.item = attachHeader header e'.item) := by
  cases es with
  | nil => simp [attachToFirst] at h
  | cons e' es =>
    rw [attachToFirst, mem_cons] at h
    obtain rfl | h := h
    · exact ⟨e', mem_cons_self, rfl, rfl, .inr rfl⟩
    · exact ⟨e, mem_cons_of_mem _ h, rfl, rfl, .inl rfl⟩

variable {u : LoadedFile}

/-- **A declaration of the merged program** is one of a file, mangled; the comments before it may be more. -/
theorem LoadedFile.mem_entries (h : e ∈ u.entries) :
    e.file = u.file ∧ e.source ∈ u.declarations ∧ ∃ header, e.item = u.mangler.mangleItem e.source ∨
        e.item = attachHeader header (u.mangler.mangleItem e.source) := by
  obtain ⟨e', he', hfile, hsource, hitem⟩ := mem_attachToFirst h
  obtain ⟨item, hmem, rfl⟩ := mem_map.mp he'
  exact ⟨hfile, hsource ▸ hmem, u.source.program.leadingComments, hsource ▸ hitem⟩

theorem LoadedFile.asImport_entries (h : e ∈ u.entries) : asImport e.item = none := by
  obtain ⟨_, hmem, header, hitem | hitem⟩ := LoadedFile.mem_entries h
  all_goals
    have hnone := (mem_filter.mp hmem).2
    simpa [hitem] using hnone

theorem declarationsOf_append (es es' : List Merged) :
    declarationsOf (es ++ es') = declarationsOf es ++ declarationsOf es' := filter_append ..

theorem declarationsOf_entries (u : LoadedFile) : declarationsOf u.entries = u.entries :=
  filter_eq_self.mpr fun e he => by simp [u.asImport_entries he]

theorem declarationsOf_assemble (c : Canonical) (stdImports : List Import) (children mangled : List Merged) :
    declarationsOf (assemble c stdImports children mangled) = declarationsOf children ++ declarationsOf mangled := by
  rw [assemble, declarationsOf_append, declarationsOf_append]
  have hnone : ∀ is : List Import, declarationsOf (is.map fun i => ⟨c, .importDecl i, .importDecl i⟩) = [] := by
    intro is
    rw [declarationsOf, filter_eq_nil_iff]
    intro e he
    obtain ⟨i, _, rfl⟩ := mem_map.mp he
    simp [asImport]
  rw [hnone, nil_append]

theorem mem_keptOf {es : List Merged} {i : Import} : i ∈ keptOf es ↔ ∃ e ∈ es, asImport e.item = some i := by
  simp [keptOf]

/-- Nothing is lost when an import is left out that a child has kept. -/
theorem mem_keptOf_assemble {c : Canonical} {stdImports : List Import} {children : List Merged} {i : Import} :
    i ∈ keptOf (assemble c stdImports children u.entries) ↔ i ∈ stdImports ++ keptOf children := by
  have hown : i ∉ keptOf u.entries := by
    rw [mem_keptOf]
    rintro ⟨e, he, hi⟩
    simp [u.asImport_entries he] at hi
  have hstd : i ∈ keptOf ((stdImports.filter fun i => !children.any fun e => asImport e.item = some i).map
      fun i => ⟨c, .importDecl i, .importDecl i⟩) ↔
        i ∈ stdImports ∧ i ∉ keptOf children := by
    rw [mem_keptOf]
    constructor
    · rintro ⟨e, he, hi⟩
      obtain ⟨j, hj, rfl⟩ := mem_map.mp he
      obtain rfl : j = i := Option.some.inj hi
      obtain ⟨hmem, hnot⟩ := mem_filter.mp hj
      simp only [Bool.not_eq_true', any_eq_false, decide_eq_true_eq] at hnot
      refine ⟨hmem, fun hkept => ?_⟩
      obtain ⟨e', he', hi'⟩ := mem_keptOf.mp hkept
      exact hnot e' he' hi'
    · rintro ⟨hmem, hnot⟩
      refine ⟨_, mem_map.mpr ⟨i, mem_filter.mpr ⟨hmem, ?_⟩, rfl⟩, rfl⟩
      simp only [Bool.not_eq_true', any_eq_false, decide_eq_true_eq]
      exact fun e' he' hi' => hnot (mem_keptOf.mpr ⟨e', he', hi'⟩)
  have happend : keptOf (assemble c stdImports children u.entries) =
      keptOf ((stdImports.filter fun i => !children.any fun e => asImport e.item = some i).map
        fun i => ⟨c, .importDecl i, .importDecl i⟩) ++ keptOf children ++ keptOf u.entries := by
    simp only [assemble, keptOf, filterMap_append]
  rw [happend, mem_append, mem_append, hstd, mem_append]
  tauto

/-! ## One file -/

variable {disk : Disk} {inlinePackages : Bool}

section Finish

variable {c : Canonical} {source : SourceFile} {st st₁ : LoaderState} {w : Progress} {p : String}

/-- The state after a file. -/
def LoaderState.finish (st : LoaderState) (u : LoadedFile) : LoaderState :=
  { st with
    inProgress := st.inProgress.dropLast
    loaded := u.file :: st.loaded
    units := st.units ++ [u] }

/-- The locals of `load` before the first item. -/
def Progress.start (st : LoaderState) (c : Canonical) : Progress where
  state := { st with inProgress := st.inProgress ++ [c] }
  pathImports := fun _ => none
  aliasRenames := fun _ => none
  mergedChildren := []
  stdImports := []
  myItems := []

theorem Visiting.start (hinv : Inv disk inlinePackages st) (hnew : c ∉ st.loaded) :
    Visiting disk inlinePackages c { st with inProgress := st.inProgress ++ [c] } [] (.start st c) := by
  refine ⟨⟨hinv.ok, hinv.loaded, hinv.nodup, ?_, hinv.claimsPlain⟩, .refl _ _, rfl, (fun _ hi => nomatch hi),
    fun _ => rfl, (fun _ _ h => nomatch h)⟩
  intro x hx
  obtain hx | hx := mem_append.mp hx
  · exact hinv.apart x hx
  · exact mem_singleton.mp hx ▸ hnew

/-- A file whose items have been gone through is finished. -/
theorem Visiting.finish_inv
    (h : Visiting disk inlinePackages c { st with inProgress := st.inProgress ++ [c] } source.program.items w)
    (hparse : disk.parse c = .ok source) (hbegin : prefixFor disk w.state c = (p, st₁))
    (hfree : c ∉ st.inProgress) :
    Inv disk inlinePackages (st₁.finish
      ⟨c, source, ⟨p, declaredNames source.program, w.pathImports, w.aliasRenames⟩⟩) := by
  obtain ⟨hgrew, hmine, hunits, hloaded, hclaims⟩ :=
    prefixFor_spec (P := Reaches disk inlinePackages c) hbegin
  have hinv := h.inv.of_prefixFor hbegin
  have hprogress : st₁.inProgress = st.inProgress ++ [c] := hgrew.inProgress.trans h.grew.inProgress
  have hunfinished : c ∉ st₁.loaded := hinv.apart c (by simp [hprogress])
  have hcons : ∀ x ∈ st₁.loaded, x ∈ c :: st₁.loaded := fun x hx => mem_cons_of_mem _ hx
  refine ⟨?_, ?_, ?_, ?_, hinv.claimsPlain⟩
  · intro u hu
    obtain hu | hu := mem_append.mp hu
    · exact (hinv.ok u hu).mono (fun _ _ h => h) hcons (fun _ _ h => h)
    · obtain rfl := mem_singleton.mp hu
      refine ⟨hparse, rfl, hmine, ?_, ?_, ?_⟩
      · exact h.brought.mono hgrew.prefixes fun x hx => hcons x (hloaded ▸ hx)
      · exact h.pathed.mono h.brought hgrew.prefixes
      · exact h.renamed.mono hgrew.claims
  · intro x
    show x ∈ c :: st₁.loaded ↔ ∃ u ∈ st₁.units ++ [_], u.file = x
    constructor
    · intro hx
      obtain rfl | hx := mem_cons.mp hx
      · exact ⟨_, mem_append_right _ (mem_singleton.mpr rfl), rfl⟩
      · obtain ⟨u, hu, rfl⟩ := (hinv.loaded x).mp hx
        exact ⟨u, mem_append_left _ hu, rfl⟩
    · rintro ⟨u, hu, rfl⟩
      obtain hu | hu := mem_append.mp hu
      · exact hcons _ ((hinv.loaded _).mpr ⟨u, hu, rfl⟩)
      · rw [mem_singleton.mp hu]
        exact mem_cons_self
  · show ((st₁.units ++ [_]).map LoadedFile.file).Nodup
    rw [map_append, nodup_append]
    refine ⟨hinv.nodup, by simp, ?_⟩
    intro x hx y hy heq
    obtain ⟨u, hu, rfl⟩ := mem_map.mp hx
    obtain rfl : y = c := by simpa using hy
    exact hunfinished ((hinv.loaded _).mpr ⟨u, hu, heq⟩)
  · intro x hx
    have hx' : x ∈ st.inProgress := by simpa [LoaderState.finish, hprogress] using hx
    show x ∉ c :: st₁.loaded
    rw [mem_cons, not_or]
    exact ⟨fun heq => hfree (heq ▸ hx'), hinv.apart x (by simp [hprogress, hx'])⟩

theorem Visiting.finish_grew
    (h : Visiting disk inlinePackages c { st with inProgress := st.inProgress ++ [c] } source.program.items w)
    (hbegin : prefixFor disk w.state c = (p, st₁)) (u : LoadedFile) (hfile : u.file = c) :
    Grew (Reaches disk inlinePackages c) st (st₁.finish u) (assemble c w.stdImports w.mergedChildren u.entries)
      (keptOf (assemble c w.stdImports w.mergedChildren u.entries)) := by
  obtain ⟨hgrew₁, _⟩ := prefixFor_spec (P := Reaches disk inlinePackages c) hbegin
  have hgrew := h.grew.trans hgrew₁
  have hkept : ∀ i, i ∈ keptOf (assemble c w.stdImports w.mergedChildren u.entries) ↔
      i ∈ w.stdImports ++ keptOf w.mergedChildren ++ [] := by
    intro i
    rw [append_nil]
    exact mem_keptOf_assemble
  refine ⟨?_, ?_, ?_, hgrew.prefixes, hgrew.bare, hgrew.claims, ?_, ?_⟩
  · simp [LoaderState.finish, hgrew.inProgress]
  · intro x hx
    exact mem_cons_of_mem _ (hgrew.loaded x hx)
  · obtain ⟨finished, hunits, hout, hreach⟩ := hgrew.units
    refine ⟨finished ++ [u], ?_, ?_, ?_⟩
    · show st₁.units ++ [u] = st.units ++ (finished ++ [u])
      rw [hunits, append_assoc]
    · rw [declarationsOf_assemble, declarationsOf_entries, flatMap_append, ← hout, append_nil]
      simp
    · intro v hv
      obtain hv | hv := mem_append.mp hv
      · exact hreach v hv
      · rw [mem_singleton.mp hv, hfile]
  · exact fun i hi => hgrew.sound i ((hkept i).mp hi)
  · exact fun name reference hname => (hgrew.complete name reference hname).imp_right (hkept _).mpr

end Finish

/-- **Loading a file keeps the invariant**, by the depth of the recursion. -/
theorem load_good (fuel : Nat) : Good disk inlinePackages (load disk inlinePackages fuel) := by
  induction fuel with
  | zero => exact fun _ _ _ _ hrun => nomatch hrun
  | succ fuel ih =>
    intro c st out st' hrun hinv hbare
    rw [load] at hrun
    split at hrun
    · exact nomatch hrun
    · next hfree =>
      split at hrun
      · next hloaded =>
        -- the file is there already
        obtain ⟨rfl, rfl⟩ := Prod.mk.inj (Except.ok.inj hrun)
        exact ⟨hinv, hfree, hloaded, .refl _ _⟩
      · next hnew =>
        obtain ⟨source, hparse, hrun⟩ := exists_of_bind_ok hrun
        obtain ⟨w, hitems, hrun⟩ := exists_of_bind_ok hrun
        have hparse := eq_ok_of_fromDisk hparse
        rcases hbegin : prefixFor disk w.state c with ⟨myPrefix, st₁⟩
        simp only [hbegin] at hrun
        obtain ⟨hout, hst⟩ := Prod.mk.inj (Except.ok.inj hrun)
        -- the state in which the items are gone through
        have hbare₀ : ∀ x, st.prefixes x = some "" → x ∈ st.inProgress ++ [c] := fun x hx =>
          mem_append.mpr ((hbare x hx).imp_right fun h => mem_singleton.mpr h)
        have hstart := Visiting.start hinv hnew
        have h := hstart.run ih hbare₀ hparse source.program.items (fun _ h => h) hitems
        rw [nil_append] at h
        -- what the file declares goes out as its entries
        have hentries : attachToFirst source.program.leadingComments
            (w.myItems.map fun item => ⟨c, item, (Mangler.mk myPrefix (declaredNames source.program)
              w.pathImports w.aliasRenames).mangleItem item⟩) =
            (LoadedFile.mk c source ⟨myPrefix, declaredNames source.program, w.pathImports,
              w.aliasRenames⟩).entries := by
          rw [h.mine]
          rfl
        rw [hentries] at hout
        subst hout hst
        exact ⟨h.finish_inv hparse hbegin hfree, hfree, mem_cons_self,
          h.finish_grew hbegin ⟨c, source, ⟨myPrefix, declaredNames source.program, w.pathImports,
            w.aliasRenames⟩⟩ rfl⟩

/-! ## A whole load -/

variable (disk inlinePackages) in
/-- **What a load has done** with its entries. -/
structure Flattened (entries : List Canonical) (merged : List Merged) (st : LoaderState) : Prop where
  inv : Inv disk inlinePackages st
  declarations : declarationsOf merged = st.units.flatMap LoadedFile.entries
  files : ∀ c, c ∈ st.units.map LoadedFile.file ↔ ∃ entry ∈ entries, Reaches disk inlinePackages entry c
  claimed : ∀ i, i ∈ keptOf merged ↔ st.claimedAliases.lookup i.importAlias = some i.reference

variable {st : LoaderState}

/-- What a finished file reaches is finished. -/
theorem Inv.mem_loaded_of_reaches (hinv : Inv disk inlinePackages st) {c g : Canonical}
    (hc : c ∈ st.loaded) (h : Reaches disk inlinePackages c g) : g ∈ st.loaded := by
  induction h with
  | refl => exact hc
  | tail _ hbrings ih =>
    obtain ⟨u, hu, rfl⟩ := (hinv.loaded _).mp ih
    obtain ⟨source, hparse, i, hi, hfile⟩ := hbrings
    have hok := hinv.ok u hu
    obtain rfl : source = u.source := Except.ok.inj (hparse.symm.trans hok.parsed)
    exact (hok.brought i hi _ hfile).1

variable {merged : List Merged} {st₀ : LoaderState}

theorem Flattened.of_grew {entries : List Canonical}
    (hinv : Inv disk inlinePackages st) (hunits₀ : st₀.units = []) (hclaims₀ : st₀.claimedAliases = [])
    (hgrew : Grew (fun c => ∃ entry ∈ entries, Reaches disk inlinePackages entry c) st₀ st merged (keptOf merged))
    (hloaded : ∀ entry ∈ entries, entry ∈ st.loaded) : Flattened disk inlinePackages entries merged st := by
  obtain ⟨finished, hunits, hout, hreach⟩ := hgrew.units
  rw [hunits₀, nil_append] at hunits
  refine ⟨hinv, by rw [hout, hunits], fun c => ⟨fun hc => ?_, ?_⟩, fun i => ⟨hgrew.sound i, fun hi => ?_⟩⟩
  · obtain ⟨u, hu, rfl⟩ := mem_map.mp hc
    exact hreach u (hunits ▸ hu)
  · rintro ⟨entry, hentry, hreaches⟩
    obtain ⟨u, hu, rfl⟩ := (hinv.loaded c).mp (hinv.mem_loaded_of_reaches (hloaded entry hentry) hreaches)
    exact mem_map_of_mem hu
  · obtain hold | hnew := hgrew.complete _ _ hi
    · simp [hclaims₀] at hold
    · exact hnew

theorem LoaderState.start_inv (naming : Naming) (prefixes : Canonical → Option String) :
    Inv disk inlinePackages { LoaderState.start naming with prefixes := prefixes } where
  ok _ hu := nomatch hu
  loaded _ := ⟨(fun h => nomatch h), (fun ⟨_, hu, _⟩ => nomatch hu)⟩
  nodup := nodup_nil
  apart _ hc := nomatch hc
  claimsPlain _ _ h := nomatch h

/-- **`load_program`**, with a root or without. -/
theorem loadRooted_flattened {entry : String} {root : Option Canonical}
    (hrun : loadRooted disk entry root = .ok (merged, st)) :
    ∃ c, disk.canonicalize entry = .ok c ∧ Flattened disk true [c] merged st := by
  obtain ⟨c, hentry, hrun⟩ := exists_of_bind_ok hrun
  refine ⟨c, eq_ok_of_fromDisk hentry, ?_⟩
  have hbare : ∀ x, Function.update (LoaderState.start ⟨root, none⟩).prefixes c (some "") x = some "" →
      x ∈ (LoaderState.start ⟨root, none⟩).inProgress ∨ x = c := by
    intro x hx
    by_cases hxc : x = c
    · exact .inr hxc
    · simp [LoaderState.start, hxc] at hx
  obtain ⟨hinv, _, hloaded, hgrew⟩ := load_good _ _ _ _ _ hrun (LoaderState.start_inv _ _) hbare
  apply Flattened.of_grew hinv rfl rfl (hgrew.imp fun x hx => ⟨c, mem_singleton.mpr rfl, hx⟩)
  exact fun entry hentry => mem_singleton.mp hentry ▸ hloaded

theorem joinItem_run {items joined joined' : List Merged} (hrun : items.foldlM joinItem joined = .ok joined') :
    declarationsOf joined' = declarationsOf joined ++ declarationsOf items ∧
      ∀ i, i ∈ keptOf joined' ↔ i ∈ keptOf joined ++ keptOf items := by
  induction items generalizing joined with
  | nil =>
    obtain rfl := Except.ok.inj hrun
    simp [declarationsOf, keptOf]
  | cons e items ih =>
    rw [foldlM_cons] at hrun
    obtain ⟨joined₁, hstep, hrun⟩ := exists_of_bind_ok hrun
    obtain ⟨hdecls, hkept⟩ := ih hrun
    unfold joinItem at hstep
    split at hstep
    · next hnone =>
      obtain rfl := Except.ok.inj hstep
      constructor
      · rw [hdecls]
        simp [declarationsOf, hnone]
      · intro i
        rw [hkept]
        simp [keptOf, hnone]
    · next i hi =>
      split at hstep
      · next j hj =>
        split at hstep
        · next heq =>
          obtain rfl := Except.ok.inj hstep
          -- the import is there
          have hmem : i ∈ keptOf joined := by
            obtain rfl : j = i := by
              have halias : j.importAlias = i.importAlias := by simpa using List.find?_some hj
              obtain ⟨_, _⟩ := i
              obtain ⟨_, _⟩ := j
              simp_all
            exact List.mem_of_find?_eq_some hj
          constructor
          · rw [hdecls]
            simp [declarationsOf, hi]
          · intro k
            rw [hkept]
            simp only [keptOf, filterMap_cons, hi, mem_append, mem_cons]
            constructor
            · rintro (hk | hk)
              · exact .inl hk
              · exact .inr (.inr hk)
            · rintro (hk | rfl | hk)
              · exact .inl hk
              · exact .inl hmem
              · exact .inr hk
        · exact nomatch hstep
      · obtain rfl := Except.ok.inj hstep
        constructor
        · rw [hdecls]
          simp [declarationsOf, hi]
        · intro k
          rw [hkept]
          simp [keptOf, hi]

variable (disk inlinePackages) in
/-- Some entries of a package, joined. -/
structure Joined (st₀ : LoaderState) (files : List Canonical) (joined : List Merged × LoaderState) : Prop where
  inv : Inv disk inlinePackages joined.2
  grew : Grew (fun c => ∃ entry ∈ files, Reaches disk inlinePackages entry c) st₀ joined.2 joined.1
    (keptOf joined.1)
  loaded : ∀ entry ∈ files, entry ∈ joined.2.loaded

theorem Joined.step (hbare : ∀ x, st₀.prefixes x ≠ some "") {files : List Canonical}
    {joined joined' : List Merged × LoaderState} (h : Joined disk inlinePackages st₀ files joined)
    {entry : String} (hrun : loadEntry disk inlinePackages joined entry = .ok joined') :
    ∃ c, disk.canonicalize entry = .ok c ∧ Joined disk inlinePackages st₀ (files ++ [c]) joined' := by
  obtain ⟨c, hentry, hrun⟩ := exists_of_bind_ok hrun
  obtain ⟨⟨items, st⟩, hload, hrun⟩ := exists_of_bind_ok hrun
  obtain ⟨out, hjoin, hrun⟩ := exists_of_bind_ok hrun
  obtain rfl := Except.ok.inj hrun
  obtain ⟨hinv, _, hloaded, hgrew⟩ := load_good _ _ _ _ _ hload h.inv
    fun x hx => absurd (h.grew.bare x hx) (hbare x)
  obtain ⟨hdecls, hkept⟩ := joinItem_run hjoin
  refine ⟨c, eq_ok_of_fromDisk hentry, hinv, ?_, ?_⟩
  · have hold := h.grew.imp (Q := fun x => ∃ entry ∈ files ++ [c], Reaches disk inlinePackages entry x)
      fun x ⟨entry, hmem, hreach⟩ => ⟨entry, mem_append_left _ hmem, hreach⟩
    have hnew := hgrew.imp (Q := fun x => ∃ entry ∈ files ++ [c], Reaches disk inlinePackages entry x)
      fun x hreach => ⟨c, mem_append_right _ (mem_singleton.mpr rfl), hreach⟩
    apply (hold.trans hnew).congr _ hkept
    rw [hdecls, declarationsOf_append]
  · intro x hx
    obtain hx | hx := mem_append.mp hx
    · exact hgrew.loaded x (h.loaded x hx)
    · exact mem_singleton.mp hx ▸ hloaded

theorem Joined.run (hbare : ∀ x, st₀.prefixes x ≠ some "") {entries : List String} :
    ∀ {files : List Canonical} {joined joined' : List Merged × LoaderState},
      Joined disk inlinePackages st₀ files joined →
        entries.foldlM (loadEntry disk inlinePackages) joined = .ok joined' →
          ∃ files', entries.mapM disk.canonicalize = .ok files' ∧
            Joined disk inlinePackages st₀ (files ++ files') joined' := by
  induction entries with
  | nil =>
    intro files joined joined' h hrun
    obtain rfl := Except.ok.inj hrun
    exact ⟨[], rfl, by rwa [append_nil]⟩
  | cons entry entries ih =>
    intro files joined joined' h hrun
    rw [foldlM_cons] at hrun
    obtain ⟨joined₁, hstep, hrun⟩ := exists_of_bind_ok hrun
    obtain ⟨c, hc, h₁⟩ := h.step hbare hstep
    obtain ⟨files', hfiles', h'⟩ := ih h₁ hrun
    refine ⟨c :: files', ?_, ?_⟩
    · rw [mapM_cons, hc, hfiles']
      rfl
    · rwa [append_assoc] at h'

/-- **`load_package`.** -/
theorem loadPackage_flattened {entries : List String} {root : Canonical} {namespaceName : String}
    (hrun : loadPackage disk entries root namespaceName inlinePackages = .ok (merged, st)) :
    ∃ files, entries.mapM disk.canonicalize = .ok files ∧ Flattened disk inlinePackages files merged st := by
  have hstart : Joined disk inlinePackages (.start ⟨some root, some namespaceName⟩) []
      ([], .start ⟨some root, some namespaceName⟩) :=
    ⟨LoaderState.start_inv _ _, .refl _ _, (fun _ h => nomatch h)⟩
  obtain ⟨files, hfiles, hinv, hgrew, hloaded⟩ := hstart.run (by simp [LoaderState.start]) hrun
  rw [nil_append] at hgrew hloaded
  exact ⟨files, hfiles, .of_grew hinv rfl rfl hgrew hloaded⟩

end LexLang.Loader
