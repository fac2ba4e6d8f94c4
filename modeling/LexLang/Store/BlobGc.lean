/-
# LexLang.Store.BlobGc — garbage collection and pushes in flight

Whether a head's files can be lost. A push puts its blobs, checks its manifest, and appends the
operation that makes it the files of a branch; nothing names the blobs until the head has moved. The
grace period is there for that window, but a put leaves a file alone that is there already, so a blob
can be old when its push begins.

A push is in flight from the start of its check until it has landed or failed. `headsPresent_exec`
is about the runs in which each garbage collection leaves their blobs alone (`Spared`).
-/
import LexLang.Store.Files

namespace LexLang

open LexLang.Vcs LexLang.Concurrent
open List Option
open Function Std

/-! ## What is there, and what stays -/

variable {id : BlobId}

section Present

variable (files : FilesEnv)

/-- A manifest and its blobs are there. -/
def Present (s : FileStore) (manifest : BlobId) : Prop :=
  ∀ id ∈ s.closure files manifest, s.hasBlob id = true

/-- **Every head has its files**: the manifest in force, and all its blobs. -/
def HeadsPresent (s : FileStore) : Prop :=
  ∀ name head manifest, s.store.headOp name = some head →
    s.store.log.manifestAt head = .set manifest → Present files s manifest

/-- Every blob is filed under its hash. -/
def Addressed (s : FileStore) : Prop :=
  ∀ (id : BlobId) (blob : Blob), s.blobs[id]? = some blob → files.sha256 blob.bytes = id

/-- What is there of a manifest and its blobs stays. -/
def Keeps (manifest : BlobId) (s s' : FileStore) : Prop :=
  ∀ id ∈ s.closure files manifest, ∀ blob, s.blobs[id]? = some blob →
    ∃ blob', s'.blobs[id]? = some blob' ∧ blob'.bytes = blob.bytes

variable {files} {s s' s'' : FileStore} {manifest : BlobId}

theorem hasBlob_iff : s.hasBlob id = true ↔ isBlobId id = true ∧ ∃ blob, s.blobs[id]? = some blob := by
  rw [FileStore.hasBlob, Bool.and_eq_true, Std.ExtTreeMap.contains_eq_isSome_getElem?, isSome_iff_exists]

theorem getManifest_congr (h : ∀ blob, s.blobs[manifest]? = some blob →
      ∃ blob', s'.blobs[manifest]? = some blob' ∧ blob'.bytes = blob.bytes)
    (hthere : ∃ blob, s.blobs[manifest]? = some blob) :
    s'.getManifest files manifest = s.getManifest files manifest := by
  obtain ⟨blob, hblob⟩ := hthere
  obtain ⟨blob', hblob', hbytes⟩ := h blob hblob
  unfold FileStore.getManifest FileStore.getBlobBytes
  rw [hblob, hblob']
  simp only [hbytes]

theorem closure_of_absent (h : s.blobs[manifest]? = none) : s.closure files manifest = [manifest] := by
  unfold FileStore.closure FileStore.getManifest FileStore.getBlobBytes
  rw [h]
  by_cases hid : isBlobId manifest = true <;> simp

theorem closure_congr (h : ∀ blob, s.blobs[manifest]? = some blob →
      ∃ blob', s'.blobs[manifest]? = some blob' ∧ blob'.bytes = blob.bytes)
    (hthere : ∃ blob, s.blobs[manifest]? = some blob) : s'.closure files manifest = s.closure files manifest := by
  unfold FileStore.closure
  rw [getManifest_congr h hthere]

theorem mem_closure_self : manifest ∈ s.closure files manifest := mem_cons_self

theorem Keeps.refl (s : FileStore) : Keeps files manifest s s :=
  fun _ _ blob h => ⟨blob, h, rfl⟩

theorem Keeps.trans (h : Keeps files manifest s s') (h' : Keeps files manifest s' s'') :
    Keeps files manifest s s'' := by
  intro id hid blob hblob
  cases hm : s.blobs[manifest]? with
  | none =>
    rw [closure_of_absent hm, mem_singleton] at hid
    rw [hid, hm] at hblob
    cases hblob
  | some mblob =>
    obtain ⟨blob', hblob', hbytes⟩ := h id hid blob hblob
    have hclosure : s'.closure files manifest = s.closure files manifest :=
      closure_congr (h manifest mem_closure_self) ⟨mblob, hm⟩
    obtain ⟨blob'', hblob'', hbytes'⟩ := h' id (hclosure ▸ hid) blob' hblob'
    exact ⟨blob'', hblob'', hbytes'.trans hbytes⟩

theorem Present.keeps (h : Present files s manifest) (hkeeps : Keeps files manifest s s') :
    Present files s' manifest := by
  have hthere := (hasBlob_iff.mp (h manifest mem_closure_self)).2
  intro id hid
  rw [closure_congr (hkeeps manifest mem_closure_self) hthere] at hid
  obtain ⟨hblobId, blob, hblob⟩ := hasBlob_iff.mp (h id hid)
  obtain ⟨blob', hblob', -⟩ := hkeeps id hid blob hblob
  exact hasBlob_iff.mpr ⟨hblobId, blob', hblob'⟩

theorem Keeps.of_blobs_eq (h : s'.blobs = s.blobs) : Keeps files manifest s s' := by
  intro id _ blob hblob
  exact ⟨blob, h ▸ hblob, rfl⟩

theorem Keeps.insert (haddressed : Addressed files s) (bytes : Bytes) (mtime : Nat) : Keeps files manifest s
      { s with blobs := s.blobs.insert (files.sha256 bytes) ⟨bytes, mtime⟩ } := by
  intro id _ blob hblob
  show ∃ blob', (s.blobs.insert _ _)[id]? = some blob' ∧ _
  rw [Std.ExtTreeMap.getElem?_insert]
  split
  · rename_i heq
    rw [Std.compare_eq_iff_eq] at heq
    refine ⟨_, rfl, files.sha256_injective ?_⟩
    rw [haddressed id blob hblob]
    exact heq
  · exact ⟨blob, hblob, rfl⟩

theorem Addressed.insert (haddressed : Addressed files s) (bytes : Bytes) (mtime : Nat) :
    Addressed files { s with blobs := s.blobs.insert (files.sha256 bytes) ⟨bytes, mtime⟩ } := by
  intro id blob hblob
  have hget : (s.blobs.insert (files.sha256 bytes) ⟨bytes, mtime⟩)[id]? = some blob := hblob
  rw [Std.ExtTreeMap.getElem?_insert] at hget
  split at hget
  · rename_i heq
    rw [Std.compare_eq_iff_eq] at heq
    rw [← some.inj hget]
    exact heq
  · exact haddressed id blob hget

theorem HeadsPresent.keeps (h : HeadsPresent files s) (hstore : s'.store = s.store)
    (hkeeps : ∀ name head manifest, s.store.headOp name = some head →
      s.store.log.manifestAt head = .set manifest → Keeps files manifest s s') : HeadsPresent files s' := by
  intro name head manifest hhead hmanifest
  rw [hstore] at hhead hmanifest
  exact (h name head manifest hhead hmanifest).keeps (hkeeps name head manifest hhead hmanifest)

end Present

/-! ## What a garbage collection deletes -/

section Sweep

variable (files : FilesEnv)

/-- A retained operation or a blob reference names the blob. -/
def FileStore.Named (s : FileStore) (id : BlobId) : Prop :=
  (∃ record ∈ s.retained files, id ∈ s.marks files record) ∨ id ∈ s.blobRefs

instance (s : FileStore) (id : BlobId) : Decidable (s.Named files id) := by
  unfold FileStore.Named
  infer_instance

variable {files} {s : FileStore} {grace : Nat}

theorem mem_live : id ∈ s.live files ↔ s.Named files id := by
  unfold FileStore.live FileStore.Named
  simp only [ExtTreeSet.mem_ofList, contains_iff_mem, mem_append, mem_flatMap]

/-- **What is swept**: files no one names, written long enough ago. -/
theorem mem_toDelete : id ∈ (s.planBlobGc files grace).toDelete ↔ isBlobId id = true ∧ ¬ s.Named files id ∧
      ∃ blob, s.blobs[id]? = some blob ∧ blob.mtime + grace ≤ s.now := by
  simp only [FileStore.planBlobGc, List.mem_map, mem_filter, Bool.and_eq_true,
    decide_eq_true_iff, FileStore.oldEnough]
  constructor
  · rintro ⟨⟨_, blob⟩, ⟨⟨hmem, hid, hlive⟩, hle, hgrace⟩, rfl⟩
    refine ⟨hid, fun hnamed => hlive (mem_live.mpr hnamed), blob, ?_, ?_⟩
    · exact Std.ExtTreeMap.mem_toList_iff_getElem?_eq_some.mp hmem
    · have hle' : blob.mtime ≤ s.now := hle
      have hgrace' : grace ≤ s.now - blob.mtime := hgrace
      omega
  · rintro ⟨hid, hnamed, blob, hblob, hold⟩
    refine ⟨(id, blob), ⟨⟨?_, hid, fun hlive => hnamed (mem_live.mp hlive)⟩, ?_, ?_⟩, rfl⟩
    · exact Std.ExtTreeMap.mem_toList_iff_getElem?_eq_some.mpr hblob
    · show blob.mtime ≤ s.now
      omega
    · show grace ≤ s.now - blob.mtime
      omega

theorem foldl_deleteBlob : ∀ (ids : List BlobId) (s : FileStore),
    (ids.foldl FileStore.deleteBlob s).store = s.store ∧
      (ids.foldl FileStore.deleteBlob s).blobRefs = s.blobRefs ∧
      ∀ id : BlobId, (ids.foldl FileStore.deleteBlob s).blobs[id]? =
        if isBlobId id = true ∧ id ∈ ids then none else s.blobs[id]?
  | [], s => ⟨rfl, rfl, fun id => by simp⟩
  | first :: ids, s => by
    obtain ⟨hstore, hrefs, hblobs⟩ := foldl_deleteBlob ids (s.deleteBlob first)
    have hfirst : (s.deleteBlob first).store = s.store ∧
        (s.deleteBlob first).blobRefs = s.blobRefs ∧ ∀ id : BlobId,
          (s.deleteBlob first).blobs[id]? =
            if isBlobId id = true ∧ id = first then none else s.blobs[id]? := by
      unfold FileStore.deleteBlob
      by_cases hid : isBlobId first = true
      · rw [hid]
        refine ⟨rfl, rfl, fun id => ?_⟩
        show (s.blobs.erase first)[id]? = _
        rw [Std.ExtTreeMap.getElem?_erase]
        by_cases hsame : id = first
        · simp [hsame, hid]
        · rw [if_neg (by simpa [Std.compare_eq_iff_eq] using Ne.symm hsame),
            if_neg (fun h => hsame h.2)]
      · simp only [hid, Bool.not_false, if_true]
        refine ⟨trivial, trivial, fun id => ?_⟩
        rw [if_neg]
        rintro ⟨h, rfl⟩
        exact hid h
    refine ⟨hstore.trans hfirst.1, hrefs.trans hfirst.2.1, fun id => ?_⟩
    rw [foldl_cons, hblobs, hfirst.2.2]
    by_cases hdel : isBlobId id = true ∧ id ∈ ids
    · rw [if_pos hdel, if_pos ⟨hdel.1, mem_cons_of_mem _ hdel.2⟩]
    · rw [if_neg hdel]
      refine if_congr ⟨fun h => ⟨h.1, h.2 ▸ mem_cons_self⟩, fun h => ⟨h.1, ?_⟩⟩ rfl rfl
      exact (mem_cons.mp h.2).resolve_right fun hmem => hdel ⟨h.1, hmem⟩

theorem store_sweep : (s.applyBlobGc (s.planBlobGc files grace)).store = s.store :=
  (foldl_deleteBlob _ s).1

/-- **What a pass leaves**: a blob that is named or young, and only what was there. -/
theorem getElem?_sweep (id : BlobId) : (s.applyBlobGc (s.planBlobGc files grace)).blobs[id]? =
      if id ∈ (s.planBlobGc files grace).toDelete then none else s.blobs[id]? := by
  rw [FileStore.applyBlobGc, (foldl_deleteBlob _ s).2.2]
  refine if_congr ⟨fun h => h.2, fun h => ⟨(mem_toDelete.mp h).1, h⟩⟩ rfl rfl

/-- **A pass keeps** what is named or young of a manifest. -/
theorem keeps_sweep {manifest : BlobId} (h : ∀ id ∈ s.closure files manifest, ∀ blob, s.blobs[id]? = some blob →
      s.Named files id ∨ s.now < blob.mtime + grace) :
    Keeps files manifest s (s.applyBlobGc (s.planBlobGc files grace)) := by
  intro id hid blob hblob
  refine ⟨blob, ?_, rfl⟩
  rw [getElem?_sweep, if_neg, hblob]
  intro hdelete
  obtain ⟨-, hnamed, blob', hblob', hold⟩ := mem_toDelete.mp hdelete
  obtain rfl := some.inj (hblob.symm.trans hblob')
  rcases h id hid blob hblob with hn | hyoung
  · exact hnamed hn
  · omega

theorem named_of_head {name : BranchName} {head : OpId} {manifest : BlobId} (hhead : s.store.headOp name = some head)
    (hmanifest : s.store.log.manifestAt head = .set manifest)
    (hid : id ∈ s.closure files manifest) : s.Named files id := by
  obtain ⟨ancestor, record, hreach, hget, hkind⟩ := OpLog.setFiles_of_manifestWithin hmanifest
  obtain rfl := OpLog.get_opId hget
  refine .inl ⟨record, ?_, ?_⟩
  · rw [FileStore.retained, mem_flatMap]
    refine ⟨head, mem_append_left _ ?_, OpLog.mem_walkBack_iff.mpr ⟨hget, hreach⟩⟩
    obtain ⟨branch, hbranch, hop⟩ := bind_eq_some_iff.mp hhead
    exact mem_filterMap.mpr ⟨(name, branch),
      Std.ExtTreeMap.mem_toList_iff_getElem?_eq_some.mpr hbranch, hop⟩
  · rw [FileStore.marks, hkind]
    exact hid

theorem Addressed.sweep (h : Addressed files s) : Addressed files (s.applyBlobGc (s.planBlobGc files grace)) := by
  intro id blob hblob
  rw [getElem?_sweep] at hblob
  split at hblob
  · cases hblob
  · exact h id blob hblob

theorem HeadsPresent.sweep (h : HeadsPresent files s) :
    HeadsPresent files (s.applyBlobGc (s.planBlobGc files grace)) :=
  h.keeps store_sweep fun _ _ _ hhead hmanifest =>
    keeps_sweep fun _ hid _ _ => .inl (named_of_head hhead hmanifest hid)

end Sweep

/-! ## Pushes in flight -/

section Contract

variable {ι : Type} [DecidableEq ι]

/-- The events of one caller, newest first. -/
def ownFile (i : ι) (trace : List (ι × FileEvent)) : List FileEvent :=
  trace.filterMap fun entry => if entry.1 = i then some entry.2 else none

/-- The manifest of a push that has started to check it, and has neither landed nor failed. -/
def inFlight : List FileEvent → Option BlobId
  | [] => none
  | .validating manifest :: _ => some manifest
  | .store _ (.landed _ _ _ _) :: _ => none
  | .ended :: _ => none
  | _ :: older => inFlight older

/-- What is seen of the store. -/
def FileEvent.onStore : FileEvent → Option Event
  | .store _ event => some event
  | _ => none

/-- The part of a trace that is seen of the store. -/
def storeTrace (trace : List (ι × FileEvent)) : List (ι × Event) :=
  trace.filterMap fun entry => entry.2.onStore.map (Prod.mk entry.1)

theorem ownFile_append (i : ι) (first second : List (ι × FileEvent)) :
    ownFile i (first ++ second) = ownFile i first ++ ownFile i second := filterMap_append

theorem ownFile_label (i j : ι) (label : Option FileEvent) :
    ownFile i (label.toList.map (Prod.mk j)) = if j = i then label.toList else [] := by
  unfold ownFile
  cases label with
  | none => simp
  | some event => by_cases h : j = i <;> simp [h]

theorem own_storeTrace (i : ι) (trace : List (ι × FileEvent)) :
    own i (storeTrace trace) = (ownFile i trace).filterMap FileEvent.onStore := by
  unfold own storeTrace ownFile
  rw [filterMap_filterMap, filterMap_filterMap]
  refine filterMap_congr fun entry _ => ?_
  by_cases h : entry.1 = i
  · simp only [h, if_true, bind_some]
    cases entry.2.onStore <;> simp
  · simp only [h]
    cases entry.2.onStore <;> simp [h]

omit [DecidableEq ι] in
theorem storeTrace_label (i : ι) (label : Option Event) (time : Nat) (trace : List (ι × FileEvent)) :
    storeTrace ((label.map (FileEvent.store time)).toList.map (Prod.mk i) ++ trace) =
      label.toList.map (Prod.mk i) ++ storeTrace trace := by
  cases label <;> rfl

variable (env : Env) (files : FilesEnv)

/-- **A garbage collection spares the pushes in flight**: of their manifests' blobs, each that is
there is named, or was written less than the grace period ago. -/
def Spared (older : List (ι × FileEvent)) (_ : ι) : FileEvent → Prop
  | .swept grace found => ∀ entry ∈ older, ∀ manifest ∈ inFlight (ownFile entry.1 older),
      ∀ id ∈ found.closure files manifest, ∀ blob ∈ found.blobs[id]?,
        found.Named files id ∨ found.now < blob.mtime + grace
  | _ => True

instance (older : List (ι × FileEvent)) (i : ι) (event : FileEvent) :
    Decidable (Spared files older i event) := by
  cases event <;> unfold Spared <;> infer_instance

/-- What holds throughout. -/
structure FilesOk (s : FileStore) : Prop where
  wellFormed : s.store.WellFormed env.digest
  addressed : Addressed files s
  heads : HeadsPresent files s

/-- **What calls on files owe each other**: the log grows, and what is there of the manifests in
flight stays. -/
def fileSpec : Spec ι FileStore FileEvent where
  inv w := FilesOk env files w.state
  meets := Spared files
  guar i w w' := (∃ label : Option FileEvent, w'.trace = label.toList.map (Prod.mk i) ++ w.trace) ∧
    w.state.store.log.Le w'.state.store.log ∧
      ∀ j, j ≠ i → ∀ manifest, inFlight (ownFile j w.trace) = some manifest →
        Keeps files manifest w.state w'.state
  rely i w w' := w.state.store.log.Le w'.state.store.log ∧
    ownFile i w'.trace = ownFile i w.trace ∧
      ∀ manifest, inFlight (ownFile i w.trace) = some manifest →
        Keeps files manifest w.state w'.state
  rely_refl i w := ⟨OpLog.Le.refl _, rfl, fun _ _ => .refl _⟩
  rely_trans := by
    rintro i w w' w'' ⟨hlog, hown, hkeeps⟩ ⟨hlog', hown', hkeeps'⟩
    refine ⟨hlog.trans hlog', hown'.trans hown, fun manifest hflight => ?_⟩
    exact (hkeeps manifest hflight).trans (hkeeps' manifest (hown ▸ hflight))
  rely_of_guar := by
    rintro i j w w' hij ⟨⟨label, htrace⟩, hlog, hkeeps⟩
    refine ⟨hlog, ?_, hkeeps i hij⟩
    rw [htrace, ownFile_append, ownFile_label, if_neg (Ne.symm hij), nil_append]

variable {env files} {i : ι} {w : World ι FileStore FileEvent} {ρ ρ' : Type}

/-! ## The rules of the building blocks -/

omit [DecidableEq ι] in
/-- **Sequencing of programs that may fail.** -/
theorem sat_fileBind {S : Spec ι FileStore FileEvent} {p : FileProg ρ} {f : ρ → FileProg ρ'}
    {P : Except FileError ρ → World ι FileStore FileEvent → Prop}
    {Q : Except FileError ρ' → World ι FileStore FileEvent → Prop} (hp : Sat S i P p.run w)
    (hok : ∀ a w', P (.ok a) w' → Sat S i Q (f a).run w')
    (herror : ∀ e w', P (.error e) w' → Q (.error e) w') : Sat S i Q (p >>= f).run w := by
  refine Sat.bind hp fun result w' hresult => ?_
  cases result with
  | ok a => exact hok a w' hresult
  | error e => exact herror e w' hresult

/-- A step that harms no one. -/
structure Harmless (env : Env) (files : FilesEnv) (s s' : FileStore) : Prop where
  ok : FilesOk env files s'
  grows : s.store.log.Le s'.store.log
  keeps : ∀ manifest, Keeps files manifest s s'

theorem Harmless.refl {s : FileStore} (h : FilesOk env files s) : Harmless env files s s :=
  ⟨h, OpLog.Le.refl _, fun _ => .refl s⟩

/-- **An access that harms no one**, seen or not. -/
theorem sat_fileAccess {act : FileStore → Except FileError ρ × FileStore}
    {note : FileStore → Option FileEvent}
    (hact : ∀ s, FilesOk env files s → Harmless env files s (act s).2) :
    Sat (fileSpec env files) i
      (fun result w' =>
        match result with
        | .ok a => ∃ s, FilesOk env files s ∧ act s = (.ok a, w'.state) ∧
            ownFile i w'.trace = (note s).toList ++ ownFile i w.trace ∧
            (note s = none → (fileSpec env files).rely i w w')
        | .error _ => True)
      (fileAccess act note).run w := by
  rintro w' ⟨hlog, hown, hkeeps⟩ hinv answer -
  cases answer with
  | false =>
    exact ⟨hinv, ⟨⟨none, rfl⟩, OpLog.Le.refl _, fun _ _ _ _ => .refl _⟩, trivial⟩
  | true =>
    have hharmless := hact w'.state hinv
    have htrace : ownFile i (w'.step i (fun ok s => if ok then (act s).2 else s)
        (fun ok s => if ok then note s else none) true).trace =
          (note w'.state).toList ++ ownFile i w.trace := by
      show ownFile i ((note w'.state).toList.map (Prod.mk i) ++ w'.trace) = _
      rw [ownFile_append, ownFile_label, if_pos rfl, hown]
    refine ⟨hharmless.ok, ⟨⟨note w'.state, rfl⟩, hharmless.grows,
      fun _ _ manifest _ => hharmless.keeps manifest⟩, ?_⟩
    simp only [if_true]
    cases hresult : (act w'.state).1 with
    | error e => trivial
    | ok a =>
      refine ⟨w'.state, hinv, Prod.ext hresult rfl, htrace, fun hnone => ⟨?_, ?_, ?_⟩⟩
      · exact hlog.trans hharmless.grows
      · rw [htrace, hnone]
        rfl
      · exact fun manifest hflight =>
        (hkeeps manifest hflight).trans (hharmless.keeps manifest)

theorem sat_fileQuery {read : FileStore → Except FileError ρ} : Sat (fileSpec env files) i
      (fun result w' => ∀ a, result = .ok a → (fileSpec env files).rely i w w' ∧ read w'.state = .ok a)
      (fileQuery read).run w := by
  have hact : ∀ s, FilesOk env files s → Harmless env files s (read s, s).2 :=
    fun _ hok => .refl hok
  refine (sat_fileAccess hact).mono fun result w' h a ha => ?_
  subst ha
  obtain ⟨s, -, hread, -, hrely⟩ := h
  obtain ⟨hread, rfl⟩ := Prod.mk.inj hread
  exact ⟨hrely rfl, hread⟩

/-- Nothing on the store has been seen of the caller yet. -/
def Quiet (i : ι) (w : World ι FileStore FileEvent) : Prop := own i (storeTrace w.trace) = []

variable {w' : World ι FileStore FileEvent}

theorem Quiet.of_own (h : Quiet i w) {events : List FileEvent}
    (hown : ownFile i w'.trace = events ++ ownFile i w.trace)
    (hevents : events.filterMap FileEvent.onStore = []) : Quiet i w' := by
  unfold Quiet at h ⊢
  rw [own_storeTrace] at h ⊢
  rw [hown, filterMap_append, hevents, h, append_nil]

theorem Quiet.rely (h : Quiet i w) (hrely : (fileSpec env files).rely i w w') : Quiet i w' := by
  have hown : ownFile i w'.trace = [] ++ ownFile i w.trace := hrely.2.1
  exact h.of_own hown rfl

/-- **Putting a blob** harms no one. -/
theorem sat_putBlobBytes {bytes : Bytes} {note : FileStore → Option FileEvent}
    (hnote : ∀ s, (note s).toList.filterMap FileEvent.onStore = []) (hquiet : Quiet i w) :
    Sat (fileSpec env files) i (fun result w' => ∀ a, result = .ok a → Quiet i w')
      (putBlobBytes files bytes note).run w := by
  refine sat_fileBind (sat_fileAccess fun s hok => .refl hok) ?_ fun e _ _ a ha => by cases ha
  rintro present w₁ ⟨s₁, -, -, hown, -⟩
  have hquiet₁ := hquiet.of_own hown (hnote s₁)
  split
  · exact fun a _ => hquiet₁
  · refine sat_fileBind sat_fileQuery ?_ fun e _ _ a ha => by cases ha
    intro mtime w₂ h₂
    have hquiet₂ := hquiet₁.rely (h₂ mtime rfl).1
    refine sat_fileBind (sat_fileAccess fun s hok => ?_) ?_ fun e _ _ a ha => by cases ha
    · exact ⟨⟨hok.wellFormed, hok.addressed.insert bytes mtime,
        hok.heads.keeps rfl fun _ _ _ _ _ => .insert hok.addressed bytes mtime⟩,
        OpLog.Le.refl _, fun _ => .insert hok.addressed bytes mtime⟩
    · rintro _ w₃ ⟨s₃, -, -, hown₃, -⟩ a -
      exact hquiet₂.of_own hown₃ rfl

theorem sat_putBlobs : ∀ (contents : List Bytes) {w : World ι FileStore FileEvent}, Quiet i w →
    Sat (fileSpec env files) i (fun result w' => ∀ a, result = .ok a → Quiet i w')
      (putBlobs files contents).run w
  | [], _, hquiet => fun _ _ => hquiet
  | bytes :: rest, w, hquiet => by
    unfold putBlobs
    refine sat_fileBind (sat_putBlobBytes (fun _ => rfl) hquiet) ?_ fun e _ _ a ha => by cases ha
    exact fun id w' h => sat_putBlobs rest (h id rfl)

/-! ## The check of a manifest -/

variable {manifest : BlobId}

/-- What a blob check found stays, while the manifest is in flight. -/
theorem hasBlob_of_rely (hflight : inFlight (ownFile i w.trace) = some manifest)
    (hrely : (fileSpec env files).rely i w w') (hid : id ∈ w.state.closure files manifest)
    (h : w.state.hasBlob id = true) : w'.state.hasBlob id = true := by
  obtain ⟨hblobId, blob, hblob⟩ := hasBlob_iff.mp h
  obtain ⟨blob', hblob', -⟩ := hrely.2.2 manifest hflight id hid blob hblob
  exact hasBlob_iff.mpr ⟨hblobId, blob', hblob'⟩

/-- **The scan for missing blobs**: what it does not report is there when it is done. -/
theorem sat_closureMissing :
    ∀ (ids : List BlobId) {w : World ι FileStore FileEvent},
      inFlight (ownFile i w.trace) = some manifest →
      (∃ blob, w.state.blobs[manifest]? = some blob) →
      (∀ id ∈ ids, id ∈ w.state.closure files manifest) →
      Sat (fileSpec env files) i
        (fun result w' => ∀ missing, result = .ok missing → (fileSpec env files).rely i w w' ∧
          ∀ id ∈ ids, id ∈ missing ∨ w'.state.hasBlob id = true)
        (closureMissing ids).run w
  | [], w, _, _, _ => by
    intro missing hmissing
    exact ⟨(fileSpec env files).rely_refl i w, fun id hid => absurd hid not_mem_nil⟩
  | first :: ids, w, hflight, hthere, hclosure => by
    unfold closureMissing
    refine sat_fileBind sat_fileQuery ?_ fun e _ _ a ha => by cases ha
    intro present w₁ h₁
    obtain ⟨hrely₁, hpresent⟩ := h₁ present rfl
    have hflight₁ : inFlight (ownFile i w₁.trace) = some manifest := by rw [hrely₁.2.1, hflight]
    have hkeeps := hrely₁.2.2 manifest hflight
    have hsame : w₁.state.closure files manifest = w.state.closure files manifest :=
      closure_congr (hkeeps manifest mem_closure_self) hthere
    have hthere₁ : ∃ blob, w₁.state.blobs[manifest]? = some blob := by
      obtain ⟨blob, hblob⟩ := hthere
      obtain ⟨blob', hblob', -⟩ := hkeeps manifest mem_closure_self blob hblob
      exact ⟨blob', hblob'⟩
    refine sat_fileBind (sat_closureMissing ids hflight₁ hthere₁ fun id hid =>
      hsame ▸ hclosure id (mem_cons_of_mem _ hid)) ?_ fun e _ _ a ha => by cases ha
    intro missing w₂ h₂ missing' hmissing'
    obtain ⟨hrely₂, hids⟩ := h₂ missing rfl
    refine ⟨(fileSpec env files).rely_trans i _ _ _ hrely₁ hrely₂, fun id hid => ?_⟩
    obtain rfl := Except.ok.inj hmissing'
    rcases mem_cons.mp hid with rfl | hid
    · cases present with
      | false => exact .inl mem_cons_self
      | true =>
        refine .inr (hasBlob_of_rely hflight₁ hrely₂ ?_ (Except.ok.inj hpresent))
        exact hsame ▸ hclosure _ mem_cons_self
    · rcases hids id hid with h | h
      · refine .inl ?_
        split
        · exact h
        · exact mem_cons_of_mem _ h
      · exact .inr h

theorem sat_checkSizes : ∀ (entries : List (String × Entry)) {w : World ι FileStore FileEvent},
    Sat (fileSpec env files) i
      (fun result w' => ∀ a, result = .ok a → (fileSpec env files).rely i w w')
      (checkSizes entries).run w
  | [], w => fun _ _ => (fileSpec env files).rely_refl i w
  | (path, e) :: entries, w => by
    unfold checkSizes
    refine sat_fileBind sat_fileQuery ?_ fun e _ _ a ha => by cases ha
    intro len w₁ h₁
    have hrely₁ := (h₁ len rfl).1
    simp only
    split
    · exact fun a ha => by cases ha
    · refine (sat_checkSizes entries).mono fun result w₂ h₂ a ha => ?_
      exact (fileSpec env files).rely_trans i _ _ _ hrely₁ (h₂ a ha)

/-- **The check of a manifest**: what it accepts is all there, and stays. -/
theorem sat_validateSetFiles (hquiet : Quiet i w) : Sat (fileSpec env files) i
      (fun result w' => ∀ m, result = .ok m → Quiet i w' ∧
        inFlight (ownFile i w'.trace) = some manifest ∧ Present files w'.state manifest)
      (validateSetFiles files manifest).run w := by
  refine sat_fileBind (sat_fileAccess fun s hok => .refl hok) ?_ fun e _ _ a ha => by cases ha
  rintro present w₁ ⟨s₁, -, hread, hown, -⟩
  obtain ⟨hpresent, rfl⟩ := Prod.mk.inj hread
  have hquiet₁ : Quiet i w₁ := hquiet.of_own hown rfl
  have hflight₁ : inFlight (ownFile i w₁.trace) = some manifest := by
    rw [hown]
    rfl
  cases present with
  | false => exact fun a ha => by cases ha
  | true =>
    have hmanifest : w₁.state.hasBlob manifest = true := Except.ok.inj hpresent
    refine sat_fileBind sat_fileQuery ?_ fun e _ _ a ha => by cases ha
    intro m w₂ h₂
    obtain ⟨hrely₂, hm⟩ := h₂ m rfl
    have hflight₂ : inFlight (ownFile i w₂.trace) = some manifest := by rw [hrely₂.2.1, hflight₁]
    have hmanifest₂ := hasBlob_of_rely hflight₁ hrely₂ mem_closure_self hmanifest
    have hclosure : w₂.state.closure files manifest = manifest :: m.blobs := by
      rw [FileStore.closure, hm]
    refine sat_fileBind (sat_closureMissing (sortedSet m.blobs) hflight₂
      (hasBlob_iff.mp hmanifest₂).2 ?_) ?_ fun e _ _ a ha => by cases ha
    · intro id hid
      rw [hclosure]
      exact mem_cons_of_mem _ (mem_sortedSet.mp hid)
    · intro missing w₃ h₃
      obtain ⟨hrely₃, hids⟩ := h₃ missing rfl
      split
      · exact fun a ha => by cases ha
      · rename_i hnone
        have hflight₃ : inFlight (ownFile i w₃.trace) = some manifest := by
          rw [hrely₃.2.1, hflight₂]
        -- nothing is missing
        have hpresent₃ : Present files w₃.state manifest := by
          intro id hid
          have hkeeps := hrely₃.2.2 manifest hflight₂
          rw [closure_congr (hkeeps manifest mem_closure_self) (hasBlob_iff.mp hmanifest₂).2, hclosure] at hid
          rcases mem_cons.mp hid with rfl | hid
          · exact hasBlob_of_rely hflight₂ hrely₃ mem_closure_self hmanifest₂
          · rw [not_not.mp hnone] at hids
            exact (hids id (mem_sortedSet.mpr hid)).resolve_left not_mem_nil
        refine sat_fileBind (sat_checkSizes m.entries.toList) ?_ fun e _ _ a ha => by cases ha
        intro _ w₄ h₄ _ _
        have hrely₄ := h₄ _ rfl
        refine ⟨((hquiet₁.rely hrely₂).rely hrely₃).rely hrely₄, by rw [hrely₄.2.1, hflight₃], ?_⟩
        exact hpresent₃.keeps (hrely₄.2.2 manifest hflight₃)

/-! ## Landing the operation -/

/-- The events of a push on the store: it lands a `SetFiles` of the manifest, once. -/
def LandsFiles (manifest : BlobId) (older : List Event) (event : Event) : Prop :=
  older = [] ∧ ∃ branch parent record filed,
    event = .landed branch parent record filed ∧ record.op.kind = .setFiles manifest

/-- The record that is filed under a landed id is of the same kind. -/
theorem kind_of_filed {digest : Digest} {log : OpLog} (hhashed : log.Hashed digest)
    {record filed : OperationRecord} (hfiled : log.get record.opId = some filed)
    (hrecord : record.op.opId digest = record.opId) : filed.op.kind = record.op.kind := by
  have hsame : filed.op.opId digest = record.op.opId digest :=
    (hhashed record.opId filed hfiled).trans hrecord.symm
  exact ((opId_eq_iff digest _ _).mp hsame).1

/-- **A step on the store keeps the heads' files**, if what it lands has its files there. -/
theorem HeadsPresent.observed {s : FileStore} {store' : Store} {label : Option Event}
    {older : List Event} (h : FilesOk env files s) (hobserved : Observed env s.store store' label)
    (hlands : ∀ event, label = some event → LandsFiles manifest older event)
    (hthere : older = [] → Present files s manifest) : HeadsPresent files { s with store := store' } := by
  intro name head m hhead hm
  have hkept : Keeps files m s { s with store := store' } := .of_blobs_eq rfl
  have hheads := hobserved.heads name
  have hhead' : store'.headOp name = some head := hhead
  have hm' : store'.log.manifestAt head = .set m := hm
  have hunmoved : s.store.headOp name = some head → Present files { s with store := store' } m := by
    intro hold
    rw [OpLog.manifestAt_of_le h.wellFormed.acyclic hobserved.wellFormed.acyclic
      h.wellFormed.closed hobserved.grows (h.wellFormed.heads name head hold)] at hm'
    exact (h.heads name head m hold hm').keeps hkept
  cases label with
  | none =>
    rw [hheads] at hhead'
    exact hunmoved hhead'
  | some event =>
    obtain ⟨hfirst, branch, parent, record, filed, rfl, hkind⟩ := hlands event rfl
    rw [hheads] at hhead'
    simp only [headAfter, bind_some, Event.moves] at hhead'
    split at hhead'
    · obtain rfl := some.inj hhead'
      obtain ⟨-, hfiled, hrecord, -⟩ := hobserved.holds _ rfl
      have hset : store'.log.manifestAt record.opId = .set manifest :=
        OpLog.manifestAt_setFiles (hobserved.grows _ _ hfiled)
          ((kind_of_filed h.wellFormed.hashed hfiled hrecord).trans hkind)
      obtain rfl : manifest = m := by
        rw [hset] at hm'
        injection hm'
      exact (hthere hfirst).keeps hkept
    · exact hunmoved hhead'

omit [DecidableEq ι] in
theorem label_eq_of_trace {label label' : Option Event} {trace : List (ι × Event)}
    (h : label.toList.map (Prod.mk i) ++ trace = label'.toList.map (Prod.mk i) ++ trace) : label = label' := by
  have hlists := append_cancel_right h
  cases label <;> cases label' <;> simp_all

/-- The world the store's programs see. -/
def storeWorld (w : World ι FileStore FileEvent) : World ι Store Event where
  state := w.state.store
  trace := storeTrace w.trace

/-- **A program on the store, run beside the files**: what it owes the store's callers is all it
takes, as long as the files of what it lands are there. -/
theorem sat_onPart {Q : Except StoreError ρ → World ι Store Event → Prop}
    {p : Prog Store Event Bool (Except StoreError ρ)} (hemits : p.Emits Event.Promised)
    (hp : Sat (spec env fun _ => LandsFiles manifest) i Q p (storeWorld w)) (hflight : Quiet i w →
      inFlight (ownFile i w.trace) = some manifest ∧ Present files w.state manifest) :
    Sat (fileSpec env files) i (fun _ _ => True) (p.onPart FileStore.store (fun store s => { s with store })
        fun event s => .store s.now event) w := by
  induction p generalizing w with
  | ret result => trivial
  | atom act label next ih =>
    rintro w' ⟨hlog, hown, hkeeps⟩ hinv answer -
    have hown' : own i (storeTrace w'.trace) = own i (storeTrace w.trace) := by
      rw [own_storeTrace, own_storeTrace, hown]
    obtain ⟨hwf, ⟨label', htrace, hobserved, hguard⟩, hnext⟩ :=
      hp (storeWorld w') ⟨hlog, hown'⟩ hinv.wellFormed answer fun event hevent =>
        hemits.1 _ _ event hevent
    -- the label is the step's own
    obtain rfl : label' = label answer w'.state.store := label_eq_of_trace htrace.symm
    have hthere : Quiet i w' → Present files w'.state manifest := by
      intro hquiet
      obtain ⟨hflying, hpresent⟩ := hflight (hown'.symm.trans hquiet)
      exact hpresent.keeps (hkeeps manifest hflying)
    have hkept : ∀ m, Keeps files m w'.state
        { w'.state with store := act answer w'.state.store } := fun m => .of_blobs_eq rfl
    have hproj := storeTrace_label i (label answer w'.state.store) w'.state.now w'.trace
    refine ⟨⟨hwf, hinv.addressed, ?_⟩, ⟨⟨_, rfl⟩, hobserved.grows, fun _ _ m _ => hkept m⟩, ?_⟩
    · exact HeadsPresent.observed hinv hobserved hguard hthere
    · refine ih answer w'.state.store (hemits.2 _ _) ?_ ?_
      · have hworld : storeWorld (w'.step i
            (fun answer s => { s with store := act answer s.store })
            (fun answer s => (label answer s.store).map fun event => .store s.now event) answer) =
            (storeWorld w').step i act label answer := by
          show World.mk _ _ = World.mk _ _
          exact congrArg _ hproj
        rw [hworld]
        exact hnext
      · intro hquiet
        have hquiet' : (label answer w'.state.store).toList ++ own i (storeTrace w'.trace) = [] := by
          have hstep : own i (storeTrace
              (((label answer w'.state.store).map (FileEvent.store w'.state.now)).toList.map
                (Prod.mk i) ++ w'.trace)) = [] := hquiet
          rwa [hproj, own_append, own_label, if_pos rfl] at hstep
        obtain ⟨hunseen, hbefore⟩ := append_eq_nil_iff.mp hquiet'
        obtain ⟨hflying, -⟩ := hflight (hown'.symm.trans hbefore)
        refine ⟨?_, (hthere hbefore).keeps (hkept manifest)⟩
        show inFlight (ownFile i (((label answer w'.state.store).map _).toList.map _ ++ _)) = _
        rw [toList_eq_nil_iff.mp hunseen]
        show inFlight (ownFile i w'.trace) = _
        rw [hown, hflying]

end Contract

/-! ## What the write path emits -/

section Emits

variable {ρ ρ' : Type}

/-- A program on the store that pushes no head. -/
abbrev Tame (p : StoreProg ρ) : Prop := p.run.Emits Event.Promised

theorem Tame.bind {p : StoreProg ρ} {f : ρ → StoreProg ρ'} (hp : Tame p) (hf : ∀ a, Tame (f a)) : Tame (p >>= f) := by
  refine Prog.Emits.bind hp fun result => ?_
  cases result with
  | ok a => exact hf a
  | error e => trivial

theorem tame_access {act : Store → Except StoreError ρ × Store} : Tame (access act fun _ _ => none) :=
  ⟨fun _ _ _ h => (by cases h), fun _ _ => trivial⟩

theorem tame_pure (a : ρ) : Tame (pure a : StoreProg ρ) := trivial

theorem tame_throw (e : StoreError) : Tame (throw e : StoreProg ρ) := trivial

theorem tame_attempt {p : StoreProg ρ} (hp : Tame p) : Tame (attempt p) :=
  Prog.Emits.bind hp fun _ => trivial

theorem tame_putAttestations : ∀ stamps : List (Nat → Attestation),
    Tame (putAttestations stamps)
  | [] => tame_pure ()
  | _ :: stamps => tame_access.bind fun _ => tame_putAttestations stamps

theorem tame_gate (branch : BranchName) (opId : OpId) (stageIds : List StageId)
    (effects : EffectSet) : Tame (gate branch opId stageIds effects) :=
  tame_access.bind fun _ => tame_putAttestations _

theorem tame_setBranchHeadOpCas (branch : BranchName) (expected : Option OpId)
    (record : OperationRecord) : Tame (setBranchHeadOpCas branch expected record) := by
  refine ⟨fun ok s event h => ?_, fun _ _ => trivial⟩
  dsimp only at h
  split at h
  · obtain rfl := some.inj h
    trivial
  · cases h

theorem tame_casAttempts (env : Env) (branch : BranchName) (op : Operation)
    (transition : StageTransition) {hook : OperationRecord → StoreProg Unit}
    (hhook : ∀ record, Tame (hook record)) :
    ∀ (attempts : Nat) (tried : Operation) (rebuiltAlready : Bool) (lastIoErr : Option StoreError),
      Tame (casAttempts env branch op transition hook attempts tried rebuiltAlready lastIoErr)
  | 0, _, _, _ => tame_throw _
  | attempts + 1, tried, rebuiltAlready, lastIoErr => by
    have hretry := tame_casAttempts env branch op transition hhook attempts
    unfold casAttempts
    refine tame_access.bind fun parent => (tame_attempt tame_access).bind fun persisted => ?_
    cases persisted with
    | error e =>
      simp only
      split
      · exact hretry _ _ _
      · exact tame_throw _
    | ok record =>
      refine (hhook record).bind fun _ => (tame_setBranchHeadOpCas _ _ _).bind fun outcome => ?_
      cases outcome with
      | ok => exact tame_pure _
      | mismatch actual =>
        simp only
        split
        · exact hretry _ _ _
        · exact tame_throw _
      | unknownBranch name => exact tame_throw _
      | io => exact hretry _ _ _

theorem tame_appendSetFiles (env : Env) (branch : BranchName) (manifest : BlobId)
    (intentId : Option IntentId) : Tame (appendSetFiles env branch manifest intentId) :=
  tame_access.bind fun _ => tame_access.bind fun _ =>
    tame_casAttempts _ _ _ _ (fun _ => tame_gate _ _ _ _) _ _ _ _

end Emits

/-! ## Runs -/

section Runs

/-- **What runs on the store's files**: pushes, garbage collections, and time. -/
inductive Process
  | push (branch : BranchName) (contents : List Bytes) (manifest : Bytes)
      (intentId : Option IntentId)
  | collect (grace : Nat)
  | tick

variable (env : Env) (files : FilesEnv)

/-- A process as a program. -/
def Process.prog : Process → FileProg Unit
  | .push branch contents manifest intentId => do
    let _ ← pushFiles files env branch contents manifest intentId
    pure ()
  | .collect grace => collectBlobs files grace
  | .tick => passTime

/-- Processes on one store, each about to start. -/
def processes {ι : Type} (s : FileStore) (procs : ι → Process) :
    Config ι FileStore FileEvent Bool (Except FileError Unit) where
  world := { state := s, trace := [] }
  pool := fun i => ((procs i).prog env files).run

variable {env files} {ι : Type} [DecidableEq ι] {i : ι} {w : World ι FileStore FileEvent}

theorem sat_pushFiles {branch : BranchName} {contents : List Bytes} {manifest : Bytes}
    {intentId : Option IntentId} (hquiet : Quiet i w) : Sat (fileSpec env files) i (fun _ _ => True)
      (pushFiles files env branch contents manifest intentId).run w := by
  have happend : ∀ {w : World ι FileStore FileEvent}, Quiet i w →
      inFlight (ownFile i w.trace) = some (files.sha256 manifest) →
      Present files w.state (files.sha256 manifest) →
      Sat (fileSpec env files) i (fun _ _ => True)
        (onStore (appendSetFiles env branch (files.sha256 manifest) intentId)).run w := by
    intro w hquiet hflight hpresent
    have hsat : Sat (spec env fun _ => LandsFiles (files.sha256 manifest)) i (fun _ _ => True)
        (appendSetFiles env branch (files.sha256 manifest) intentId).run (storeWorld w) := by
      refine sat_bind_unseen (sat_readHead.mono fun _ _ h => h.1) ?_ fun _ _ _ => trivial
      intro head w' hgrew
      refine (applyOperation_sat fun parent record filed hvariant _ => ?_).mono
        fun _ _ _ => trivial
      refine ⟨?_, branch, parent, record, filed, rfl, hvariant.kind.trans ?_⟩
      · rw [hgrew.own_eq]
        exact hquiet
      · cases intentId <;> rfl
    exact Sat.bind (sat_onPart (tame_appendSetFiles _ _ _ _) hsat fun _ => ⟨hflight, hpresent⟩)
      fun _ _ _ => trivial
  have hcheck : ∀ {w : World ι FileStore FileEvent}, Quiet i w →
      Sat (fileSpec env files) i (fun _ _ => True)
        (orEnd (applySetFilesChecked files env branch (files.sha256 manifest) intentId)).run w := by
    intro w hquiet
    have hset : Sat (fileSpec env files) i (fun _ _ => True)
        (applySetFilesChecked files env branch (files.sha256 manifest) intentId).run w := by
      refine sat_fileBind (sat_validateSetFiles hquiet) ?_ fun _ _ _ => trivial
      intro m w' h
      obtain ⟨hquiet', hflight, hpresent⟩ := h m rfl
      exact happend hquiet' hflight hpresent
    refine Sat.bind hset fun result w' _ => ?_
    cases result with
    | ok a => trivial
    | error e =>
      -- that it failed is seen, and nothing else
      rintro w'' - hinv answer -
      exact ⟨hinv, ⟨⟨_, rfl⟩, OpLog.Le.refl _, fun _ _ _ _ => .refl _⟩, trivial⟩
  have hrest : ∀ {w : World ι FileStore FileEvent} {rest : List Bytes}, Quiet i w →
      Sat (fileSpec env files) i (fun _ _ => True) (putBlobs files rest >>= fun _ =>
        orEnd (applySetFilesChecked files env branch (files.sha256 manifest) intentId)).run w := by
    intro w rest hquiet
    refine sat_fileBind (sat_putBlobs rest hquiet) ?_ fun _ _ _ => trivial
    exact fun _ w' h => hcheck (h _ rfl)
  unfold pushFiles
  cases hall : contents ++ [manifest] with
  | nil => exact hcheck hquiet
  | cons first rest =>
    refine sat_fileBind (sat_putBlobBytes (fun _ => rfl) hquiet) ?_ fun _ _ _ => trivial
    exact fun _ w' h => hrest (h _ rfl)

/-- **A garbage collection keeps the contract**, if it spares the pushes in flight. -/
theorem sat_collectBlobs (grace : Nat) :
    Sat (fileSpec env files) i (fun _ _ => True) (collectBlobs files grace).run w := by
  rintro w' - hinv answer hmeets
  cases answer with
  | false => exact ⟨hinv, ⟨⟨none, rfl⟩, OpLog.Le.refl _, fun _ _ _ _ => .refl _⟩, trivial⟩
  | true =>
    have hspared : Spared files w'.trace i (.swept grace w'.state) := hmeets _ rfl
    refine ⟨⟨?_, hinv.addressed.sweep, hinv.heads.sweep⟩, ⟨⟨_, rfl⟩, ?_, ?_⟩, trivial⟩
    · show Store.WellFormed env.digest (FileStore.applyBlobGc _ _).store
      rw [store_sweep]
      exact hinv.wellFormed
    · show OpLog.Le _ (FileStore.applyBlobGc _ _).store.log
      rw [store_sweep]
      exact OpLog.Le.refl _
    · intro j _ manifest hflight
      refine keeps_sweep fun id hid blob hblob => ?_
      -- a push in flight has been seen
      obtain ⟨entry, hentry, rfl⟩ : ∃ entry ∈ w'.trace, entry.1 = j := by
        by_contra hnone
        have hown : ownFile j w'.trace = [] := by
          refine filterMap_eq_nil_iff.mpr fun entry hentry => ?_
          rw [if_neg fun h => hnone ⟨entry, hentry, h⟩]
        rw [hown] at hflight
        cases hflight
      exact hspared entry hentry manifest hflight id hid blob hblob

theorem sat_passTime : Sat (fileSpec env files) i (fun _ _ => True) passTime.run w := by
  refine (sat_fileAccess fun s hok => ?_).mono fun _ _ _ => trivial
  refine ⟨⟨hok.wellFormed.congr rfl (fun _ => rfl) rfl, hok.addressed, ?_⟩, OpLog.Le.refl _,
    fun _ => .of_blobs_eq rfl⟩
  exact fun name head manifest hhead hm => hok.heads name head manifest hhead hm

theorem processes_sound {s : FileStore} (hok : FilesOk env files s) (procs : ι → Process) :
    (processes env files s procs).Sound (fileSpec env files) fun _ _ _ => True := by
  refine ⟨hok, fun i => ⟨_, (fileSpec env files).rely_refl i _, ?_⟩⟩
  show Sat _ i _ ((procs i).prog env files).run { state := s, trace := [] }
  cases procs i with
  | push branch contents manifest intentId =>
    exact sat_fileBind (sat_pushFiles rfl) (fun _ _ _ => trivial) fun _ _ _ => trivial
  | collect grace => exact sat_collectBlobs grace
  | tick => exact sat_passTime

end Runs

/-! ## An old blob -/

/-- A landing within the grace period of the push's first put. -/
def InTime {ι : Type} [DecidableEq ι] (grace : Nat) (older : List (ι × FileEvent)) (i : ι) :
    FileEvent → Prop
  | .store time (.landed _ _ _ _) => ∀ event ∈ ownFile i older,
      match event with
      | .began start => time ≤ start + grace
      | _ => True
  | _ => True

instance {ι : Type} [DecidableEq ι] (grace : Nat) (older : List (ι × FileEvent)) (i : ι)
    : (event : FileEvent) → Decidable (InTime grace older i event)
  | .store time event => match event with
    | .landed .. =>
      have : ∀ event : FileEvent, Decidable (match event with
          | .began start => time ≤ start + grace
          | _ => True)
        | .began start => inferInstanceAs (Decidable (time ≤ start + grace))
        | .store .. | .validating .. | .ended | .swept .. => .isTrue trivial
      inferInstanceAs (Decidable (∀ event ∈ ownFile i older, _))
    | .planned .. | .passed .. | .merging .. | .judged .. | .rolledBack .. | .rollbackLost .. | .pushed ..
    | .journaled .. | .created .. | .reported .. => .isTrue trivial
  | .began .. | .validating .. | .ended | .swept .. => .isTrue trivial

/-- A push of a manifest and all its blobs, or a garbage collection with the grace period. -/
def Process.Sane (files : FilesEnv) (grace : Nat) : Process → Prop
  | .push _ contents manifest _ => ∃ m, Manifest.fromBytes files manifest = .ok m ∧
      ∀ id ∈ m.blobs, id ∈ contents.map files.sha256
  | .collect grace' => grace' = grace
  | .tick => True

/-- **Pushes are safe**: whatever was there before, no run of pushes in time and garbage collections
leaves a head without its files. -/
def PushesSafe (env : Env) (files : FilesEnv) (grace : Nat) : Prop :=
  ∀ s : FileStore, FilesOk env files s → ∀ procs : ℕ → Process,
    (∀ i, (procs i).Sane files grace) → ∀ schedule,
      AllMeet (InTime grace) ((processes env files s procs).exec schedule).world.trace →
        HeadsPresent files ((processes env files s procs).exec schedule).world.state

/-- One run in time after which a head names a file that is gone. -/
theorem not_pushesSafe {env : Env} {files : FilesEnv} {grace : Nat} {s : FileStore} (hok : FilesOk env files s)
    {procs : ℕ → Process} (hsane : ∀ i, (procs i).Sane files grace) {schedule : List (ℕ × Bool)}
    {c : Config ℕ FileStore FileEvent Bool (Except FileError Unit)}
    (hrun : (processes env files s procs).exec schedule = c) {name : BranchName} {head : OpId}
    {manifest id : BlobId}
    (hlost : AllMeet (InTime grace) c.world.trace ∧ c.world.state.store.headOp name = some head ∧
      c.world.state.store.log.manifestAt head = .set manifest ∧
      id ∈ c.world.state.closure files manifest ∧ c.world.state.hasBlob id = false) :
    ¬ PushesSafe env files grace := by
  intro hsafe
  subst hrun
  obtain ⟨hintime, hhead, hmanifest, hnamed, hgone⟩ := hlost
  have hheads := hsafe s hok procs hsane schedule hintime
  have hthere := hheads name head manifest hhead hmanifest id hnamed
  exact Bool.false_ne_true (hgone.symm.trans hthere)

/-- The id of the empty file. -/
def emptyFile : BlobId := "e3b0c44298fc1c149afbf4c8996fb92427ae41e4649b934ca495991b7852b855"

/-- A manifest of one empty file, as JSON. -/
def oneFileJson : Bytes :=
  ("\x7b\"version\":1,\"entries\":\x7b\"a\":\x7b\"blob\":\"" ++ emptyFile ++
    "\",\"mode\":\"100644\",\"size\":0\x7d\x7d\x7d").toUTF8.data.toList

/-- Its id. -/
def oneFileId : BlobId := "1d9375475bd6860d7471fd1350e38d847d418e7f3d6394a3532eea497fbf0302"

/-- The manifest. -/
def oneFile : Manifest where
  version := 1
  entries := (∅ : ExtTreeMap String Entry).insert "a" ⟨emptyFile, "100644", 0⟩

/-- The hash on the two files, and no collisions. -/
def twoFilesHash (bytes : Bytes) : BlobId :=
  if bytes = [] then emptyFile
  else if bytes = oneFileJson then oneFileId
  else String.ofList ('#' :: bytes.map fun b => Char.ofNat b.toNat)

theorem toNat_byteChar : ∀ n : Fin 256, (Char.ofNat n).toNat = n := by decide +kernel

theorem injective_override {α β : Type} [DecidableEq α] {f : α → β} (hf : Injective f)
    {a : α} {v : β} (hv : ∀ x, f x ≠ v) : Injective fun x => if x = a then v else f x := by
  intro x y h
  dsimp only at h
  split at h
  · rename_i hx
    split at h
    · rename_i hy
      rw [hx, hy]
    · exact absurd h.symm (hv y)
  · split at h
    · exact absurd h (hv x)
    · exact hf h

theorem twoFilesHash_injective : Injective twoFilesHash := by
  have hchars : Injective fun bytes : Bytes =>
      String.ofList ('#' :: bytes.map fun b => Char.ofNat b.toNat) := by
    intro bytes bytes' h
    have hlists := (List.cons.inj (String.ofList_injective h)).2
    refine map_injective_iff.mpr (fun b b' hb => ?_) hlists
    have hb' : (Char.ofNat b.toNat).toNat = (Char.ofNat b'.toNat).toNat := congrArg Char.toNat hb
    rw [toNat_byteChar ⟨b.toNat, b.toNat_lt⟩, toNat_byteChar ⟨b'.toNat, b'.toNat_lt⟩] at hb'
    exact UInt8.toNat_inj.mp hb'
  -- no digest starts with a hash sign
  have hplain : ∀ (id : BlobId), id.toList.head? ≠ some '#' → ∀ bytes : Bytes,
      String.ofList ('#' :: bytes.map fun b => Char.ofNat b.toNat) ≠ id := by
    rintro id hid bytes rfl
    simp at hid
  refine injective_override (injective_override hchars (hplain _ (by decide +kernel))) fun bytes => ?_
  split
  · decide +kernel
  · exact hplain _ (by decide +kernel) bytes

/-- The two files, and nothing else. -/
def twoFiles : FilesEnv where
  sha256 := twoFilesHash
  sha256_injective := twoFilesHash_injective
  toVec := fun _ => oneFileJson
  fromSlice := fun bytes => if bytes = oneFileJson then .ok oneFile else .error "expected value"
  toLowercase := fun path => path
  matched := fun _ => []

/-- A short id for the operation that sets the manifest. -/
def setFilesTable : List (CanonicalForm × OpId) :=
  [((Operation.new (.setFiles oneFileId) []).canonicalForm, "op")]

noncomputable def filesEnv : Env where
  digest := .ofTable setFilesTable (by decide) (by decide)
  typeChecks := fun _ => true
  locksAgree := fun _ => true
  semanticMerge := fun _ _ _ _ _ _ => none
  manifestOk := fun _ => true

/-- A store without branches, at time 100. -/
def storeAt100 (blobs : ExtTreeMap BlobId Blob) : FileStore where
  store := { Store.empty with clock := 100 }
  blobs := blobs
  blobRefs := []

theorem filesOk_storeAt100 {blobs : ExtTreeMap BlobId Blob} (haddressed : Addressed twoFiles (storeAt100 blobs)) :
    FilesOk filesEnv twoFiles (storeAt100 blobs) where
  wellFormed := (Store.wellFormed_empty _).congr rfl (fun _ => rfl) rfl
  addressed := haddressed
  heads := by
    intro name head manifest hhead
    simp [storeAt100, Store.empty, Store.headOp, Store.getBranch] at hhead

/-- A push of the manifest and its file, and a garbage collection with a grace period of 10. -/
def pushAndCollect : ℕ → Process
  | 0 => .push "main" [[]] oneFileJson none
  | _ => .collect 10

/-- The push, with the collection between its check and its operation. -/
def collectedBetween (check : Nat) : List (ℕ × Bool) :=
  List.replicate check (0, true) ++ [(1, true)] ++ List.replicate 7 (0, true)

/-- A store with the empty file, written long ago. -/
def storeWithOld : FileStore :=
  storeAt100 ((∅ : ExtTreeMap BlobId Blob).insert emptyFile ⟨[], 0⟩)

/-- The push of a blob that was there already, and old. -/
noncomputable abbrev oldPush : Config ℕ FileStore FileEvent Bool (Except FileError Unit) :=
  (processes filesEnv twoFiles storeWithOld pushAndCollect).exec (collectedBetween 8)

end LexLang
