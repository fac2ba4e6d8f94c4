/-
# LexLang.Store.ManifestMerge — the files of a merge

`manifest_merge` (`lex-store/src/files.rs`) compares the manifests of both sides of a merge with the
one they come from, path by path: a path that one side left alone takes the other side's entry, and
one that both changed differently is a conflict. `build_merged_manifest` adds the entry chosen for
each conflict and puts the manifest, which validates it. A merge of accepted manifests need not be
accepted: one side may add a file where the other adds a directory.
-/
import LexLang.Store.ManifestRules
import LexLang.Vcs.MergeSession

namespace LexLang

open LexLang.Vcs
open List

/-- The entries of a manifest, by path. -/
abbrev Entries := Std.ExtTreeMap String Entry

/-- A path that both sides changed, differently. -/
structure ManifestConflict where
  path : FilePath
  base : Option Entry
  ours : Option Entry
  theirs : Option Entry

/-- The entries that need no decision, and the paths that need one. -/
structure MergedPaths where
  autoEntries : Entries
  conflicts : List ManifestConflict

inductive ManifestMergeOutcome
  | noChange
  | needed (merged : MergedPaths)

/-- Why there is no merged manifest. -/
inductive ManifestMergeError
  | files (error : FileError)
  | ambiguousManifest (opId : String)

/-! ## `manifest_merge` -/

/-- Keep an entry, if there is one. -/
def MergedPaths.keep (acc : MergedPaths) (path : FilePath) : Option Entry → MergedPaths
  | some e => { acc with autoEntries := acc.autoEntries.insert path e }
  | none => acc

/-- One path of the comparison. -/
def mergePath (b o t : Entries) (acc : MergedPaths) (path : FilePath) : MergedPaths :=
  if o[path]? = t[path]? then acc.keep path o[path]?
  else if o[path]? = b[path]? then acc.keep path t[path]?
  else if t[path]? = b[path]? then acc.keep path o[path]?
  else { acc with conflicts := acc.conflicts ++ [⟨path, b[path]?, o[path]?, t[path]?⟩] }

/-- **The comparison**, over every path of the three manifests in order. -/
def mergePaths (b o t : Entries) : MergedPaths :=
  (sortedSet (b.keys ++ o.keys ++ t.keys)).foldl (mergePath b o t) ⟨∅, []⟩

namespace FileStore

variable (files : FilesEnv) (s : FileStore)

/-- The manifest in force at a head. -/
def manifestOf : Option OpId → ManifestAt
  | some head => s.store.log.manifestAt head
  | none => .absent

/-- Its content; without one that is well-defined, no files. -/
def manifestForAt : ManifestAt → Except FileError Manifest
  | .absent | .ambiguous => .ok ⟨manifestVersion, ∅⟩
  | .set manifest => s.getManifest files manifest

/-- **Merge the manifests of two heads** that come from a third. -/
def manifestMerge (baseHead oursHead theirsHead : Option OpId) :
    Except ManifestMergeError ManifestMergeOutcome :=
  let oursAt := s.manifestOf oursHead
  let theirsAt := s.manifestOf theirsHead
  if oursAt = theirsAt then .ok .noChange
  else if oursAt = .ambiguous then .error (.ambiguousManifest (oursHead.getD ""))
  else if theirsAt = .ambiguous then .error (.ambiguousManifest (theirsHead.getD ""))
  else do
    let base ← (s.manifestForAt files (s.manifestOf baseHead)).mapError .files
    let ours ← (s.manifestForAt files oursAt).mapError .files
    let theirs ← (s.manifestForAt files theirsAt).mapError .files
    pure (.needed (mergePaths base.entries ours.entries theirs.entries))

/-! ## `build_merged_manifest` -/

/-- The entries with a path set, or removed. -/
def setEntry (entries : Entries) (path : FilePath) : Option Entry → Entries
  | some e => entries.insert path e
  | none => entries.erase path

/-- Add the entry chosen for each conflict; `none` when one is not decided. -/
def chooseEntries (resolutions : FilePath → Option FileResolution) :
    List ManifestConflict → Entries → Option Entries
  | [], entries => some entries
  | c :: conflicts, entries =>
    match resolutions c.path with
    | some .takeOurs => chooseEntries resolutions conflicts (setEntry entries c.path c.ours)
    | some .takeTheirs => chooseEntries resolutions conflicts (setEntry entries c.path c.theirs)
    | some .defer | none => none

/-- The store with a blob, which stays as it is if it is there. -/
def withBlob (bytes : Bytes) : FileStore :=
  if s.blobs.contains (files.sha256 bytes) then s
  else { s with blobs := s.blobs.insert (files.sha256 bytes) ⟨bytes, s.now⟩ }

/-- **Validate a manifest and put it.** -/
def putManifest (m : Manifest) : Except FileError (BlobId × FileStore) :=
  match Manifest.validate files m with
  | .error e => .error (.invalidManifest e)
  | .ok () => .ok (files.sha256 (files.toVec m), s.withBlob files (files.toVec m))

/-- **Build the merged manifest** and put it. -/
def buildMergedManifest (merged : MergedPaths) (resolutions : FilePath → Option FileResolution)
    (mergeOpId : String) : Except ManifestMergeError (BlobId × FileStore) :=
  match chooseEntries resolutions merged.conflicts merged.autoEntries with
  | none => .error (.ambiguousManifest mergeOpId)
  | some entries => (s.putManifest files ⟨manifestVersion, entries⟩).mapError .files

end FileStore

/-! ## What a path comes to -/

/-- Both sides changed the entry, and not to the same. -/
abbrev Disputed (b o t : Option Entry) : Prop := o ≠ t ∧ o ≠ b ∧ t ≠ b

/-- **The three-way value**: the common side, the side that changed, or the side chosen. -/
def threeWay (b o t : Option Entry) (choice : Option FileResolution) : Option Entry :=
  if o = t then o
  else if o = b then t
  else if t = b then o
  else if choice = some .takeOurs then o else t

/-- A decision for one of the sides. -/
abbrev Decided (choice : Option FileResolution) : Prop :=
  choice = some .takeOurs ∨ choice = some .takeTheirs

/-- The same decision, the sides swapped. -/
def swapChoice : FileResolution → FileResolution
  | .takeOurs => .takeTheirs
  | .takeTheirs => .takeOurs
  | .defer => .defer

theorem threeWay_of_not_disputed {b o t : Option Entry} (h : ¬ Disputed b o t)
    (choice choice' : Option FileResolution) : threeWay b o t choice = threeWay b o t choice' := by
  unfold threeWay
  split_ifs with ho hb ht
  all_goals first | rfl | exact absurd ⟨ho, hb, ht⟩ h

theorem threeWay_swap {b o t : Option Entry} {choice : Option FileResolution}
    (hdecided : Disputed b o t → Decided choice) :
    threeWay b t o (choice.map swapChoice) = threeWay b o t choice := by
  unfold threeWay
  by_cases ho : o = t
  · simp [ho]
  by_cases hb : o = b
  · subst hb
    simp [ho, Ne.symm ho]
  by_cases ht : t = b
  · subst ht
    simp [ho, Ne.symm ho]
  rcases hdecided ⟨ho, hb, ht⟩ with rfl | rfl <;> simp [ho, hb, ht, Ne.symm ho, swapChoice]

theorem threeWay_eq_or (b o t : Option Entry) (choice : Option FileResolution) :
    threeWay b o t choice = o ∨ threeWay b o t choice = t := by
  unfold threeWay
  split_ifs <;> simp

variable {resolutions : FilePath → Option FileResolution}

section Paths

variable (b o t : Entries)

/-- What is reported of a disputed path. -/
def conflictAt (p : FilePath) : ManifestConflict := ⟨p, b[p]?, o[p]?, t[p]?⟩

/-- The path is disputed. -/
abbrev DisputedAt (p : FilePath) : Prop := Disputed b[p]? o[p]? t[p]?

/-- The value of a path under some resolutions. -/
def valueAt (resolutions : FilePath → Option FileResolution) (p : FilePath) : Option Entry :=
  threeWay b[p]? o[p]? t[p]? (resolutions p)

variable {b o t}

theorem mergePath_eq (acc : MergedPaths) (p : FilePath) : mergePath b o t acc p =
    if DisputedAt b o t p then { acc with conflicts := acc.conflicts ++ [conflictAt b o t p] }
    else acc.keep p (valueAt b o t (fun _ => none) p) := by
  unfold mergePath valueAt threeWay conflictAt
  by_cases hdis : DisputedAt b o t p
  · obtain ⟨ho, hb, ht⟩ := hdis
    rw [if_neg ho, if_neg hb, if_neg ht, if_pos ⟨ho, hb, ht⟩]
  · rw [if_neg hdis]
    split_ifs with ho hb ht
    all_goals first | rfl | exact absurd ⟨ho, hb, ht⟩ hdis

/-- **The comparison of some paths**: the disputed ones are reported, the others have their value. -/
theorem foldl_mergePath : ∀ (ks : List FilePath) (acc : MergedPaths),
    (ks.foldl (mergePath b o t) acc).conflicts =
        acc.conflicts ++ (ks.filter fun p => DisputedAt b o t p).map (conflictAt b o t) ∧
      ∀ p, (ks.foldl (mergePath b o t) acc).autoEntries[p]? =
        if p ∈ ks ∧ ¬ DisputedAt b o t p then
          (valueAt b o t (fun _ => none) p).or acc.autoEntries[p]? else acc.autoEntries[p]?
  | [], acc => by simp
  | k :: ks, acc => by
    obtain ⟨hconflicts, hentries⟩ := foldl_mergePath ks (mergePath b o t acc k)
    rw [foldl_cons, hconflicts]
    simp only [hentries]
    rw [mergePath_eq]
    by_cases hk : DisputedAt b o t k
    · rw [if_pos hk]
      refine ⟨by simp [hk], fun p => ?_⟩
      by_cases hp : p = k
      · simp [hp, hk]
      · simp [hp]
    · rw [if_neg hk]
      have hkeep : ∀ value : Option Entry, (acc.keep k value).conflicts = acc.conflicts ∧
          ∀ p, (acc.keep k value).autoEntries[p]? =
            if p = k then value.or acc.autoEntries[p]? else acc.autoEntries[p]? := by
        intro value
        cases value with
        | none => simp [MergedPaths.keep]
        | some e =>
          refine ⟨rfl, fun p => ?_⟩
          show (acc.autoEntries.insert k e)[p]? = _
          rw [Std.ExtTreeMap.getElem?_insert]
          by_cases hp : p = k
          · simp [hp]
          · simp [hp, Ne.symm hp]
      refine ⟨by simp [hkeep, hk], fun p => ?_⟩
      rw [(hkeep _).2]
      by_cases hp : p = k
      · subst hp
        by_cases hin : p ∈ ks <;> simp [hin, hk, ← Option.or_assoc]
      · simp [hp]

theorem mergePaths_conflicts : (mergePaths b o t).conflicts =
    ((sortedSet (b.keys ++ o.keys ++ t.keys)).filter fun p => DisputedAt b o t p).map (conflictAt b o t) := by
  have h := (foldl_mergePath (b := b) (o := o) (t := t) (sortedSet (b.keys ++ o.keys ++ t.keys)) ⟨∅, []⟩).1
  exact h

theorem getElem?_of_notMem {p : FilePath} (h : p ∉ sortedSet (b.keys ++ o.keys ++ t.keys)) :
    b[p]? = none ∧ o[p]? = none ∧ t[p]? = none := by
  simpa [mem_sortedSet, not_or, and_assoc] using h

theorem mem_conflicts_iff {c : ManifestConflict} : c ∈ (mergePaths b o t).conflicts ↔
    ∃ p, DisputedAt b o t p ∧ conflictAt b o t p = c := by
  rw [mergePaths_conflicts, mem_map]
  refine exists_congr fun p => and_congr_left fun _ => ?_
  rw [mem_filter, decide_eq_true_eq, and_iff_right_iff_imp]
  intro hp
  by_contra hnot
  obtain ⟨-, ho, ht⟩ := getElem?_of_notMem hnot
  exact hp.1 (ho.trans ht.symm)

theorem mergePaths_autoEntries (p : FilePath) : (mergePaths b o t).autoEntries[p]? =
    if DisputedAt b o t p then none else valueAt b o t (fun _ => none) p := by
  have h := (foldl_mergePath (b := b) (o := o) (t := t)
    (sortedSet (b.keys ++ o.keys ++ t.keys)) ⟨∅, []⟩).2 p
  refine h.trans ?_
  by_cases hp : p ∈ sortedSet (b.keys ++ o.keys ++ t.keys)
  · by_cases hdis : DisputedAt b o t p
    · rw [if_neg fun h => h.2 hdis, if_pos hdis, Std.ExtTreeMap.getElem?_empty]
    · rw [if_pos ⟨hp, hdis⟩, if_neg hdis, Std.ExtTreeMap.getElem?_empty, Option.or_none]
  · obtain ⟨-, ho, ht⟩ := getElem?_of_notMem hp
    rw [if_neg fun h => hp h.1, Std.ExtTreeMap.getElem?_empty]
    simp [valueAt, threeWay, ho, ht]

/-- **The choices are made** when every conflict is decided; each then has its value. -/
theorem chooseEntries_eq :
    ∀ (ps : List FilePath), (∀ p ∈ ps, DisputedAt b o t p ∧ Decided (resolutions p)) →
      ∀ entries : Entries, ∃ merged,
        FileStore.chooseEntries resolutions (ps.map (conflictAt b o t)) entries = some merged ∧
          ∀ p, merged[p]? = if p ∈ ps then valueAt b o t resolutions p else entries[p]?
  | [], _, entries => ⟨entries, rfl, by simp⟩
  | q :: ps, hps, entries => by
    have hset : ∀ (value : Option Entry) (p : FilePath), (FileStore.setEntry entries q value)[p]? =
        if p = q then value else entries[p]? := by
      intro value p
      cases value with
      | none =>
        show (entries.erase q)[p]? = _
        rw [Std.ExtTreeMap.getElem?_erase]
        by_cases hp : p = q
        · simp [hp]
        · simp [hp, Ne.symm hp]
      | some e =>
        show (entries.insert q e)[p]? = _
        rw [Std.ExtTreeMap.getElem?_insert]
        by_cases hp : p = q
        · simp [hp]
        · simp [hp, Ne.symm hp]
    obtain ⟨⟨⟨ho, hb, ht⟩, hdecided⟩, hrest⟩ := forall_mem_cons.mp hps
    obtain ⟨merged, hmerged, hvalue⟩ := chooseEntries_eq ps hrest
      (FileStore.setEntry entries q (valueAt b o t resolutions q))
    refine ⟨merged, ?_, fun p => ?_⟩
    · unfold valueAt threeWay at hmerged
      rw [if_neg ho, if_neg hb, if_neg ht] at hmerged
      rw [map_cons, FileStore.chooseEntries]
      rcases hdecided with h | h <;> simpa [h, conflictAt] using hmerged
    · rw [hvalue, hset]
      by_cases hp : p = q
      · simp [hp]
      · simp [hp]

/-- **Every path of the merge has its three-way value.** -/
theorem chooseEntries_mergePaths (resolutions : FilePath → Option FileResolution)
    (hdecided : ∀ c ∈ (mergePaths b o t).conflicts, Decided (resolutions c.path)) :
    ∃ merged, FileStore.chooseEntries resolutions (mergePaths b o t).conflicts
        (mergePaths b o t).autoEntries = some merged ∧ ∀ p, merged[p]? = valueAt b o t resolutions p := by
  have hall : ∀ p, DisputedAt b o t p → Decided (resolutions p) := fun p hp =>
    hdecided _ (mem_conflicts_iff.mpr ⟨p, hp, rfl⟩)
  have hks : ∀ p ∈ (sortedSet (b.keys ++ o.keys ++ t.keys)).filter fun p => DisputedAt b o t p,
      DisputedAt b o t p ∧ Decided (resolutions p) := by
    intro p hp
    have hdis : DisputedAt b o t p := of_decide_eq_true (mem_filter.mp hp).2
    exact ⟨hdis, hall p hdis⟩
  obtain ⟨merged, hmerged, hvalue⟩ := chooseEntries_eq _ hks (mergePaths b o t).autoEntries
  refine ⟨merged, by rw [mergePaths_conflicts]; exact hmerged, fun p => ?_⟩
  rw [hvalue, mergePaths_autoEntries]
  simp only [mem_filter, decide_eq_true_eq]
  by_cases hdis : DisputedAt b o t p
  · have hin : p ∈ sortedSet (b.keys ++ o.keys ++ t.keys) := by
      by_contra hnot
      obtain ⟨-, ho, ht⟩ := getElem?_of_notMem hnot
      exact hdis.1 (ho.trans ht.symm)
    rw [if_pos ⟨hin, hdis⟩]
  · rw [if_neg fun h => hdis h.2, if_neg hdis]
    exact threeWay_of_not_disputed hdis _ _

end Paths

/-! ## Merges that are accepted -/

section Accepted

variable {files : FilesEnv} {b o t : Manifest}

/-- Two paths that no accepted manifest has together. -/
def Collide (files : FilesEnv) (p q : FilePath) : Prop :=
  (p ≠ q ∧ files.toLowercase p = files.toLowercase q) ∨ Under p q

theorem not_collide_of_accepted {m : Manifest} (h : Manifest.Accepted files m) {p q : FilePath}
    (hp : p ∈ m.entries) (hq : q ∈ m.entries) : ¬ Collide files p q := by
  rintro (⟨hne, heq⟩ | hunder)
  · exact hne (h.apart p hp q hq heq)
  · exact h.notUnder p hp q hq hunder

/-- **A merge of accepted manifests is accepted exactly when no two of its paths collide.** -/
theorem validate_merged_iff {merged : Entries}
    (hours : Manifest.validate files o = .ok ()) (htheirs : Manifest.validate files t = .ok ())
    (hvalue : ∀ p, merged[p]? = valueAt b.entries o.entries t.entries resolutions p) :
    Manifest.validate files ⟨manifestVersion, merged⟩ = .ok () ↔ ∀ p ∈ merged, ∀ q ∈ merged, ¬ Collide files p q := by
  have ho := Manifest.validate_eq_ok_iff.mp hours
  have ht := Manifest.validate_eq_ok_iff.mp htheirs
  rw [Manifest.validate_eq_ok_iff]
  constructor
  · intro h p hp q hq
    exact not_collide_of_accepted h hp hq
  · intro h
    refine ⟨rfl, fun p e he => ?_, fun p hp q hq heq => ?_, fun p hp q hq hunder => h p hp q hq (.inr hunder)⟩
    · have hp : merged[p]? = some e := he
      rw [hvalue] at hp
      rcases threeWay_eq_or b.entries[p]? o.entries[p]? t.entries[p]? (resolutions p) with heq | heq
      · exact ho.entry p e (heq.symm.trans hp)
      · exact ht.entry p e (heq.symm.trans hp)
    · by_contra hne
      exact h p hp q hq (.inl ⟨hne, heq⟩)

/-- What `manifestMerge` compares are accepted manifests. -/
theorem manifestMerge_needed {s : FileStore} {baseHead oursHead theirsHead : Option OpId} {merged : MergedPaths}
    (h : s.manifestMerge files baseHead oursHead theirsHead = .ok (.needed merged)) :
    ∃ b o t : Manifest, merged = mergePaths b.entries o.entries t.entries ∧
      s.manifestForAt files (s.manifestOf baseHead) = .ok b ∧ s.manifestForAt files (s.manifestOf oursHead) = .ok o ∧
      s.manifestForAt files (s.manifestOf theirsHead) = .ok t := by
  unfold FileStore.manifestMerge at h
  simp only at h
  split_ifs at h with hsame hours htheirs
  · cases h
  cases hb : s.manifestForAt files (s.manifestOf baseHead) with
  | error e => rw [hb] at h; cases h
  | ok b =>
    cases ho : s.manifestForAt files (s.manifestOf oursHead) with
    | error e => rw [hb, ho] at h; cases h
    | ok o =>
      cases ht : s.manifestForAt files (s.manifestOf theirsHead) with
      | error e => rw [hb, ho, ht] at h; cases h
      | ok t =>
        rw [hb, ho, ht] at h
        cases h
        exact ⟨b, o, t, rfl, rfl, rfl, rfl⟩

end Accepted

/-- A file in a directory that has the name of the other manifest's file. -/
def underOneFile : Manifest where
  version := manifestVersion
  entries := (∅ : Entries).insert "a/b" ⟨emptyFile, modeFile, 0⟩

end LexLang
