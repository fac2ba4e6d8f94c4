/-
# LexLang.Store.ManifestRules — what an accepted manifest promises

`Manifest::validate` (`lex-store/src/files.rs`) checks each entry, then refuses two paths with one
lower case, then a path that is a directory of another; `validate_eq_ok_iff` says what is left.
Directories and reserved paths are compared as they are spelt. On a file system that ignores case an
accepted manifest can therefore still need one name as a file and as a directory, and claim a path
of the op log; `checksOut_iff` says that this is all.
-/
import LexLang.Store.BlobGc

namespace LexLang

open List Option Std.ExtTreeMap

/-! ## Directories of a path -/

/-- A path lies under a directory. -/
def Under (dir path : String) : Prop := ∃ rest, path = dir ++ "/" ++ rest

theorem intercalate_append {α : Type} (sep : List α) : ∀ {xs ys : List (List α)}, xs ≠ [] → ys ≠ [] →
    sep.intercalate (xs ++ ys) = sep.intercalate xs ++ sep ++ sep.intercalate ys
  | [x], ys, _, hys => by
    rw [singleton_append, intercalate_cons_of_ne_nil hys, intercalate_singleton]
  | x :: x' :: xs, ys, _, hys => by
    have ih := intercalate_append sep (cons_ne_nil x' xs) hys
    rw [cons_append, intercalate_cons_of_ne_nil (append_ne_nil_of_right_ne_nil _ hys), ih,
      intercalate_cons_of_ne_nil (cons_ne_nil x' xs)]
    simp only [append_assoc]

/-- **The proper directories of a path** are those it lies under. -/
theorem mem_properDirs_iff {dir path : String} : dir ∈ properDirs path ↔ Under dir path := by
  unfold properDirs Under
  simp only [List.mem_map, mem_range]
  constructor
  · rintro ⟨n, hn, rfl⟩
    let comps := path.toList.splitOn '/'
    have hn : n + 1 < comps.length := by
      show n + 1 < (path.toList.splitOn '/').length
      omega
    refine ⟨String.ofList (intercalate ['/'] (comps.drop (n + 1))), ?_⟩
    apply String.toList_injective
    simp only [String.toList_append, String.toList_ofList]
    have htake : comps.take (n + 1) ≠ [] := by
      apply ne_nil_of_length_pos
      rw [length_take]
      omega
    have hdrop : comps.drop (n + 1) ≠ [] := by
      apply ne_nil_of_length_pos
      rw [length_drop]
      omega
    have happend := intercalate_append ['/'] htake hdrop
    rw [take_append_drop] at happend
    exact (intercalate_splitOn '/').symm.trans happend
  · rintro ⟨rest, rfl⟩
    have hsplit : (dir ++ "/" ++ rest).toList.splitOn '/' =
        dir.toList.splitOn '/' ++ rest.toList.splitOn '/' := by
      rw [String.toList_append, String.toList_append, append_assoc]
      exact splitOn_append_cons_self _ _
    have hdir := length_pos_of_ne_nil (splitOn_ne_nil '/' dir.toList)
    have hrest := length_pos_of_ne_nil (splitOn_ne_nil '/' rest.toList)
    refine ⟨(dir.toList.splitOn '/').length - 1, ?_, ?_⟩
    · rw [hsplit, length_append]
      omega
    · rw [hsplit, Nat.sub_add_cancel hdir, take_left, intercalate_splitOn, String.ofList_toList]

/-! ## What is accepted -/

namespace Manifest

/-- An entry passes its own checks. -/
def EntryOk (path : String) (e : Entry) : Prop :=
  validatePath path = .ok () ∧ (e.mode = modeFile ∨ e.mode = modeExec) ∧ isBlobId e.blob = true

variable {files : FilesEnv} {m : Manifest}

theorem checkEntries_eq_ok_iff : ∀ {entries : List (String × Entry)}
    {folded : Std.ExtTreeMap String String}, checkEntries files entries folded = .ok () ↔
      (∀ entry ∈ entries, EntryOk entry.1 entry.2 ∧ folded[files.toLowercase entry.1]? = none) ∧
        (entries.map fun entry => files.toLowercase entry.1).Nodup := by
  intro entries
  induction entries with
  | nil => simp [checkEntries]
  | cons entry entries ih =>
    intro folded
    obtain ⟨path, e⟩ := entry
    unfold checkEntries
    by_cases hok : EntryOk path e ∧ folded[files.toLowercase path]? = none
    · obtain ⟨⟨hpath, hmode, hblob⟩, hnew⟩ := hok
      have hmode' : ¬ (e.mode ≠ modeFile ∧ e.mode ≠ modeExec) := by tauto
      have hkey : ∀ k : String, (folded.insert (files.toLowercase path) path)[k]? = none ↔
          files.toLowercase path ≠ k ∧ folded[k]? = none := by
        intro k
        rw [Std.ExtTreeMap.getElem?_insert]
        by_cases hk : files.toLowercase path = k <;> simp [hk]
      simp only [hpath, if_neg hmode', hblob, Bool.not_true, Bool.false_eq_true, if_false, hnew,
        ih, forall_mem_cons, map_cons,
        nodup_cons, List.mem_map, hkey, EntryOk, hmode, and_self, true_and]
      constructor
      · rintro ⟨hall, hnodup⟩
        exact ⟨fun entry h => ⟨(hall entry h).1, (hall entry h).2.2⟩,
          fun h => h.elim fun entry h => (hall entry h.1).2.1 h.2.symm, hnodup⟩
      · rintro ⟨hall, hnone, hnodup⟩
        exact ⟨fun entry h => ⟨(hall entry h).1, fun heq => hnone ⟨entry, h, heq.symm⟩,
          (hall entry h).2⟩, hnodup⟩
    · constructor
      · intro h
        exfalso
        apply hok
        split at h
        · cases h
        · rename_i hpath
          split at h
          · cases h
          · rename_i hmode
            split at h
            · cases h
            · rename_i hblob
              split at h
              · cases h
              · rename_i hnew
                exact ⟨⟨hpath, by tauto, by simpa using hblob⟩, hnew⟩
      · rintro ⟨hall, -⟩
        exact absurd (hall (path, e) mem_cons_self) hok

/-- **What an accepted manifest promises.** -/
structure Accepted (files : FilesEnv) (m : Manifest) : Prop where
  version : m.version = manifestVersion
  entry : ∀ (path : String) (e : Entry), m.entries[path]? = some e → EntryOk path e
  apart : ∀ p ∈ m.entries, ∀ q ∈ m.entries, files.toLowercase p = files.toLowercase q → p = q
  notUnder : ∀ p ∈ m.entries, ∀ q ∈ m.entries, ¬ Under p q

theorem mem_entries_iff {p : String} : p ∈ m.entries ↔ ∃ e, (p, e) ∈ m.entries.toList := by
  rw [← isSome_getElem?_iff_mem, isSome_iff_exists]
  simp only [mem_toList_iff_getElem?_eq_some]

/-- **A manifest is accepted exactly when it keeps these promises.** -/
theorem validate_eq_ok_iff : validate files m = .ok () ↔ Accepted files m := by
  have hdirs : (m.entries.keys.findSome? fun path =>
      ((properDirs path).find? fun dir => decide (dir ∈ m.entries)).map fun dir =>
        ManifestError.fileDirCollision dir path) = none ↔
      ∀ p ∈ m.entries, ∀ q ∈ m.entries, ¬ Under p q := by
    simp only [findSome?_eq_none_iff, map_eq_none_iff, find?_eq_none,
      decide_eq_true_eq, Std.ExtTreeMap.mem_keys, mem_properDirs_iff]
    exact ⟨fun h p hp q hq hunder => h q hq p hunder hp, fun h q hq p hunder hp => h p hp q hq hunder⟩
  have hentries : checkEntries files m.entries.toList ∅ = .ok () ↔
      (∀ (path : String) (e : Entry), m.entries[path]? = some e → EntryOk path e) ∧
        ∀ p ∈ m.entries, ∀ q ∈ m.entries, files.toLowercase p = files.toLowercase q → p = q := by
    have hnodup : (m.entries.toList.map fun entry => files.toLowercase entry.1).Nodup ↔
        ∀ p ∈ m.entries, ∀ q ∈ m.entries, files.toLowercase p = files.toLowercase q → p = q := by
      have hmap : (m.entries.toList.map fun entry => files.toLowercase entry.1) =
          m.entries.keys.map files.toLowercase := by
        rw [← map_fst_toList_eq_keys, List.map_map]
        rfl
      rw [hmap, nodup_map_iff_inj_on nodup_keys]
      simp only [Std.ExtTreeMap.mem_keys]
    rw [checkEntries_eq_ok_iff, hnodup]
    refine and_congr_left fun _ => ?_
    simp [Prod.forall, mem_toList_iff_getElem?_eq_some]
  unfold validate
  by_cases hversion : m.version = manifestVersion
  · rw [if_neg (not_not.mpr hversion)]
    constructor
    · intro h
      split at h
      · cases h
      · rename_i hok
        split at h
        · cases h
        · rename_i hnone
          obtain ⟨hentry, hapart⟩ := hentries.mp hok
          exact ⟨hversion, hentry, hapart, hdirs.mp hnone⟩
    · rintro ⟨-, hentry, hapart, hunder⟩
      rw [hentries.mpr ⟨hentry, hapart⟩, hdirs.mpr hunder]
  · rw [if_pos hversion]
    exact ⟨fun h => (by cases h), fun h => absurd h.version hversion⟩

end Manifest

/-! ## Lower case -/

/-- **What Unicode lower case promises**: a slash separates, it comes from a slash only, and a text in
lower-case ASCII comes from its ASCII spellings only, the Kelvin sign apart. -/
structure LowersCase (lower : String → String) : Prop where
  slash : ∀ s t, lower (s ++ "/" ++ t) = lower s ++ "/" ++ lower t
  noSlash : ∀ s : String, '/' ∉ s.toList → '/' ∉ (lower s).toList
  ascii : ∀ s t : String, (∀ c ∈ t.toList, c.toNat < 128 ∧ c.isUpper = false ∧ c ≠ 'k') →
    (lower s = t ↔ eqIgnoreAsciiCase s.toList t.toList = true)

/-- The components of a path. -/
def components (path : String) : List String := (path.toList.splitOn '/').map String.ofList

/-- The path with these components. -/
def joined (comps : List String) : String :=
  String.ofList (intercalate ['/'] (comps.map String.toList))

theorem joined_components (path : String) : joined (components path) = path := by
  unfold joined components
  rw [List.map_map, show String.toList ∘ String.ofList = id from funext fun _ => String.toList_ofList,
    List.map_id, intercalate_splitOn, String.ofList_toList]

theorem components_joined {comps : List String} (hne : comps ≠ [])
    (h : ∀ comp ∈ comps, '/' ∉ comp.toList) : components (joined comps) = comps := by
  unfold joined components
  rw [String.toList_ofList, splitOn_intercalate '/' (by simpa using h) (by simpa using hne),
    List.map_map, show String.ofList ∘ String.toList = id from funext fun _ => String.ofList_toList,
    List.map_id]

theorem joined_append {xs ys : List String} (hxs : xs ≠ []) (hys : ys ≠ []) :
    joined (xs ++ ys) = joined xs ++ "/" ++ joined ys := by
  apply String.toList_injective
  unfold joined
  rw [map_append, intercalate_append _ (by simpa using hxs) (by simpa using hys)]
  simp

theorem components_ne_nil (path : String) : components path ≠ [] := by
  simp [components]

theorem notMem_of_mem_splitOn {c : Char} : ∀ {l x : List Char}, x ∈ l.splitOn c → c ∉ x
  | [], x, hx => by simp_all
  | d :: l, x, hx => by
    rw [splitOn_cons_eq_if_modifyHead] at hx
    split at hx
    · rcases mem_cons.mp hx with rfl | hx
      · exact not_mem_nil
      · exact notMem_of_mem_splitOn hx
    · rename_i hd
      cases hl : l.splitOn c with
      | nil => exact absurd hl (splitOn_ne_nil c l)
      | cons y ys =>
        have hin : ∀ z ∈ y :: ys, c ∉ z := fun z hz => notMem_of_mem_splitOn (hl ▸ hz)
        rw [hl] at hx
        rcases mem_cons.mp hx with rfl | hx
        · rw [mem_cons, not_or]
          exact ⟨fun h => hd (by rw [h, beq_self_eq_true]), hin y mem_cons_self⟩
        · exact hin x (mem_cons_of_mem _ hx)

theorem noSlash_of_mem_components {path comp : String} (h : comp ∈ components path) : '/' ∉ comp.toList := by
  obtain ⟨chars, hchars, rfl⟩ := List.mem_map.mp h
  rw [String.toList_ofList]
  exact notMem_of_mem_splitOn hchars

section Lower

variable {lower : String → String} (hlower : LowersCase lower)

include hlower

theorem LowersCase.joined : ∀ {comps : List String}, comps ≠ [] →
    lower (joined comps) = LexLang.joined (comps.map lower)
  | [comp], _ => by simp [LexLang.joined]
  | comp :: comp' :: comps, _ => by
    rw [← singleton_append, joined_append (by simp) (by simp), hlower.slash,
      LowersCase.joined (cons_ne_nil comp' comps), map_append,
      joined_append (by simp) (by simp)]
    simp [LexLang.joined]

/-- **The components in lower case** are those of the path in lower case. -/
theorem LowersCase.components (path : String) : components (lower path) = (LexLang.components path).map lower := by
  have h := hlower.joined (components_ne_nil path)
  rw [joined_components] at h
  rw [h, components_joined (by simpa using components_ne_nil path)]
  intro comp hcomp
  obtain ⟨comp, hin, rfl⟩ := List.mem_map.mp hcomp
  exact hlower.noSlash comp (noSlash_of_mem_components hin)

/-- A directory in lower case is a directory, spelt some way. -/
theorem LowersCase.under {p q : String} (h : Under (lower p) (lower q)) :
    ∃ dir, Under dir q ∧ lower dir = lower p := by
  obtain ⟨rest, hrest⟩ := h
  have hcomps : (LexLang.components q).map lower =
      LexLang.components (lower p) ++ LexLang.components rest := by
    rw [← hlower.components, hrest]
    unfold LexLang.components
    rw [← map_append, String.toList_append, String.toList_append, append_assoc]
    exact congrArg _ (splitOn_append_cons_self _ _)
  obtain ⟨xs, ys, hq, hxs, hys⟩ := map_eq_append_iff.mp hcomps
  have hxs' : xs ≠ [] := by
    rintro rfl
    exact components_ne_nil _ hxs.symm
  have hys' : ys ≠ [] := by
    rintro rfl
    exact components_ne_nil _ hys.symm
  refine ⟨LexLang.joined xs, ⟨LexLang.joined ys, ?_⟩, ?_⟩
  · rw [← joined_append hxs' hys', ← hq, joined_components]
  · rw [hlower.joined hxs', hxs, joined_components]

end Lower

/-! ## On a file system that ignores case -/

/-- A path with a component `.git`. -/
def InDotGit (path : String) : Prop := ".git" ∈ components path

/-- A path under a top-level `.lex`. -/
def InDotLex (path : String) : Prop := (components path).head? = some ".lex"

namespace Manifest

/-- **A manifest checks out where case is ignored**: in lower case no two paths are one, none is a
directory of another, and none is the op log's or in the directories kept out. -/
def ChecksOut (files : FilesEnv) (m : Manifest) : Prop :=
  (∀ p ∈ m.entries, ∀ q ∈ m.entries, p ≠ q → files.toLowercase p ≠ files.toLowercase q ∧
    ¬ Under (files.toLowercase p) (files.toLowercase q)) ∧
  ∀ p ∈ m.entries, isReservedPath (files.toLowercase p) = false ∧
    ¬ InDotGit (files.toLowercase p) ∧ ¬ InDotLex (files.toLowercase p)

/-- **One spelling**: a path that is in another case a directory of a path is so as it is spelt, and one
that is reserved in another case is so as it is spelt. -/
structure OneSpelling (files : FilesEnv) (m : Manifest) : Prop where
  dirs : ∀ p ∈ m.entries, ∀ q ∈ m.entries, ∀ dir, Under dir q →
    files.toLowercase p = files.toLowercase dir → p = dir
  reserved : ∀ p ∈ m.entries, isReservedPath (files.toLowercase p) = true → isReservedPath p = true

theorem not_of_badComponent {comp : List Char} {i : Nat} (h : badComponent comp i = none) :
    ¬ eqIgnoreAsciiCase comp ".git".toList = true ∧ (i = 0 → ¬ eqIgnoreAsciiCase comp ".lex".toList = true) := by
  unfold badComponent at h
  repeat' split at h
  all_goals cases h
  rename_i hgit hlex
  exact ⟨hgit, fun hi heq => hlex ⟨hi, heq⟩⟩

/-- What a path that passes by itself is not, in any case. -/
theorem not_kept_out {lower : String → String} (hlower : LowersCase lower) {path : String}
    (h : validatePath path = .ok ()) :
    isReservedPath path = false ∧ ¬ InDotGit (lower path) ∧ ¬ InDotLex (lower path) := by
  unfold validatePath at h
  simp only at h
  have hgood : ((path.toList.splitOn '/').zipIdx.findSome? fun entry =>
      badComponent entry.1 entry.2) = none ∧ isReservedPath path = false := by
    repeat' split at h
    all_goals cases h
    rename_i hnone hreserved
    exact ⟨hnone, by simpa using hreserved⟩
  rw [findSome?_eq_none_iff] at hgood
  have hcomp : ∀ (i : Nat) (chars : List Char), (path.toList.splitOn '/')[i]? = some chars →
      badComponent chars i = none := by
    intro i chars hi
    exact hgood.1 (chars, i) (mem_zipIdx_iff_getElem?.mpr hi)
  refine ⟨hgood.2, ?_, ?_⟩
  · intro hgit
    rw [InDotGit, hlower.components] at hgit
    obtain ⟨comp, hmem, heq⟩ := List.mem_map.mp hgit
    obtain ⟨chars, hchars, rfl⟩ := List.mem_map.mp hmem
    obtain ⟨i, hi⟩ := mem_iff_getElem?.mp hchars
    have hbad := hcomp i chars hi
    rw [hlower.ascii _ _ (by simp), String.toList_ofList] at heq
    exact (not_of_badComponent hbad).1 heq
  · intro hlex
    rw [InDotLex, hlower.components, head?_map] at hlex
    obtain ⟨comp, hhead, heq⟩ := map_eq_some_iff.mp hlex
    rw [LexLang.components, head?_map] at hhead
    obtain ⟨chars, hchars, rfl⟩ := map_eq_some_iff.mp hhead
    have hbad := hcomp 0 chars (by rw [← head?_eq_getElem?]; exact hchars)
    rw [hlower.ascii _ _ (by simp), String.toList_ofList] at heq
    exact (not_of_badComponent hbad).2 rfl heq

variable {files : FilesEnv} {m : Manifest}

/-- **An accepted manifest checks out exactly when it has one spelling** for each directory that a file
could be taken for, and for the reserved paths. -/
theorem checksOut_iff (hlower : LowersCase files.toLowercase) (hvalid : validate files m = .ok ()) :
    ChecksOut files m ↔ OneSpelling files m := by
  have haccepted := validate_eq_ok_iff.mp hvalid
  have hpath : ∀ p ∈ m.entries, isReservedPath p = false ∧ ¬ InDotGit (files.toLowercase p) ∧
      ¬ InDotLex (files.toLowercase p) := by
    intro p hp
    obtain ⟨e, he⟩ := mem_entries_iff.mp hp
    exact not_kept_out hlower
      (haccepted.entry p e (mem_toList_iff_getElem?_eq_some.mp he)).1
  constructor
  · rintro ⟨hpairs, howned⟩
    refine ⟨fun p hp q hq dir hdir heq => ?_, fun p hp hreserved => ?_⟩
    · exfalso
      obtain ⟨rest, rfl⟩ := hdir
      have hunder : Under (files.toLowercase p) (files.toLowercase (dir ++ "/" ++ rest)) :=
        ⟨files.toLowercase rest, by rw [hlower.slash, heq]⟩
      by_cases hpq : p = dir ++ "/" ++ rest
      · -- no text lies under itself
        obtain ⟨rest', hrest'⟩ := hunder
        rw [← hpq] at hrest'
        have := congrArg (fun s : String => s.toList.length) hrest'
        simp at this
      · exact (hpairs p hp _ hq hpq).2 hunder
    · rw [(howned p hp).1] at hreserved
      cases hreserved
  · rintro ⟨hdirs, hreserved⟩
    refine ⟨fun p hp q hq hpq => ⟨fun heq => hpq (haccepted.apart p hp q hq heq), ?_⟩, ?_⟩
    · intro hunder
      obtain ⟨dir, hdir, heq⟩ := hlower.under hunder
      have := hdirs p hp q hq dir hdir heq.symm
      exact haccepted.notUnder p hp q hq (this ▸ hdir)
    · intro p hp
      refine ⟨?_, (hpath p hp).2⟩
      by_contra hres
      have := hreserved p hp (by simpa using hres)
      rw [(hpath p hp).1] at this
      cases this

/-- Lower case of ASCII letters only. -/
def asciiLower (s : String) : String := String.ofList (s.toList.map Char.toLower)

theorem lowersCase_asciiLower : LowersCase asciiLower where
  slash s t := by
    apply String.toList_injective
    simp [asciiLower]
  noSlash s h hslash := by
    rw [asciiLower, String.toList_ofList, List.mem_map] at hslash
    obtain ⟨c, hc, hlow⟩ := hslash
    have hsame : c = '/' := by
      unfold Char.toLower at hlow
      split at hlow
      · rename_i hup
        have hval := congrArg (fun c : Char => c.val.toNat) hlow
        have hlo : 65 ≤ c.toNat := hup.1
        have hhi : c.toNat ≤ 90 := hup.2
        simp [UInt32.toNat_add] at hval
        omega
      · exact hlow
    exact h (hsame ▸ hc)
  ascii s t ht := by
    have hmap : t.toList.map Char.toLower = t.toList := by
      refine (map_congr_left fun c hc => ?_).trans (List.map_id _)
      exact dif_neg (of_decide_eq_false (ht c hc).2.1)
    unfold eqIgnoreAsciiCase
    rw [hmap, beq_iff_eq, asciiLower, ← String.toList_inj, String.toList_ofList]

/-- Two files under names that only case tells apart, one as a directory. -/
def caseFiles : FilesEnv := { twoFiles with toLowercase := asciiLower }

def fooTwice : Manifest where
  version := manifestVersion
  entries := ((∅ : Std.ExtTreeMap String Entry).insert "foo" ⟨emptyFile, modeFile, 0⟩).insert "FOO/bar"
    ⟨emptyFile, modeFile, 0⟩

/-- **`foo` and `FOO/bar` are accepted together**, though one is a directory of the other where case is
ignored. -/
theorem fooTwice_accepted :
    ¬ ∀ (files : FilesEnv) (m : Manifest), LowersCase files.toLowercase → validate files m = .ok () →
      ChecksOut files m := by
  intro h
  have hout := (h caseFiles fooTwice lowersCase_asciiLower (by decide +kernel)).1 "foo" (by decide) "FOO/bar"
    (by decide) (by decide)
  exact hout.2 ⟨"bar", by decide⟩

theorem checksOut_iff_fooTwice : ChecksOut caseFiles fooTwice ↔ OneSpelling caseFiles fooTwice :=
  checksOut_iff lowersCase_asciiLower (by decide +kernel)

end Manifest

end LexLang
