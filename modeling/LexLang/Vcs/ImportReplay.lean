/-
# LexLang.Vcs.ImportReplay — the imports of a history, and what a publish records of them

The imports of a branch are not stored: they are what the import operations of its history leave
(`derive_imports_from_oplog` in `lex-store/src/store.rs`). An addition names the module and, when it
is not the default one, the alias. A removal names the module alone.

File by file a replay is a fold over the operations of that file (`importsOf_foldl`).
-/
import LexLang.Vcs.PublishRoundTrip

namespace LexLang.Vcs

open LexLang.Ast
open List

/-! ## Replay -/

/-- The order of a `BTreeSet<ImportRef>`: by module, then by alias. -/
def importLe (a b : ImportRef) : Bool :=
  decide (a.reference < b.reference) ||
    (decide (a.reference = b.reference) && decide (a.importAlias ≤ b.importAlias))

/-- `BTreeSet::insert`. -/
def insertImport (m : ImportRef) (imports : List ImportRef) : List ImportRef :=
  if m ∈ imports then imports else imports.orderedInsert (fun a b => importLe a b) m

/-- **One operation of a history** on the imports found so far. -/
def replayImport (out : ImportMap) : OperationKind → ImportMap
  | .addImport inFile moduleRef importAlias =>
    -- the alias is left out of the operation when it is the default one
    out.insert inFile (insertImport
      ⟨moduleRef, importAlias.getD (defaultImportAlias moduleRef)⟩ (out[inFile]?.getD []))
  | .removeImport inFile moduleRef =>
    match out[inFile]? with
    | some imports => out.insert inFile (imports.filter fun m => decide (m.reference ≠ moduleRef))
    | none => out
  | _ => out

/-- The imports the operations of a history leave, from those before it. -/
def replayImports (old : ImportMap) (kinds : List OperationKind) : ImportMap :=
  kinds.foldl replayImport old

/-- The imports of one file, none when the file is not listed. -/
def importsOf (imports : ImportMap) (file : String) : List ImportRef := imports[file]?.getD []

/-- The same imports of every file; a file without any need not be listed. -/
def SameImports (a b : ImportMap) : Prop :=
  ∀ file m, m ∈ importsOf a file ↔ m ∈ importsOf b file

@[simp] theorem mem_insertImport {m x : ImportRef} {imports : List ImportRef} :
    x ∈ insertImport m imports ↔ x = m ∨ x ∈ imports := by
  unfold insertImport
  split
  · constructor
    · exact Or.inr
    · rintro (rfl | h)
      · assumption
      · exact h
  · rw [mem_orderedInsert]

/-- The alias an addition records is the one it had. -/
theorem explicitAlias_getD (m : ImportRef) :
    (⟨m.reference, (explicitAlias m).getD (defaultImportAlias m.reference)⟩ : ImportRef) = m := by
  obtain ⟨reference, importAlias⟩ := m
  unfold explicitAlias
  split
  · next h => rw [Option.getD_none, ← h]
  · rfl

/-! ## File by file -/

/-- The file an import operation is about. -/
def OperationKind.importFile : OperationKind → Option String
  | .addImport inFile _ _ => some inFile
  | .removeImport inFile _ => some inFile
  | _ => none

/-- What an import operation does to the imports of its file. -/
def OperationKind.onFile (imports : List ImportRef) : OperationKind → List ImportRef
  | .addImport _ moduleRef importAlias =>
    insertImport ⟨moduleRef, importAlias.getD (defaultImportAlias moduleRef)⟩ imports
  | .removeImport _ moduleRef => imports.filter fun m => decide (m.reference ≠ moduleRef)
  | _ => imports

theorem importsOf_insert (out : ImportMap) (file inFile : String) (imports : List ImportRef) :
    importsOf (out.insert inFile imports) file = if file = inFile then imports else importsOf out file := by
  unfold importsOf
  rw [Std.ExtTreeMap.getElem?_insert]
  by_cases h : file = inFile
  · simp [h]
  · rw [if_neg h, if_neg]
    rw [Std.compare_eq_iff_eq]
    exact fun he => h he.symm

/-- **One operation changes one file**, and only if it is an import operation. -/
theorem importsOf_replayImport (out : ImportMap) (file : String) (kind : OperationKind) :
    importsOf (replayImport out kind) file =
      if kind.importFile = some file then kind.onFile (importsOf out file)
      else importsOf out file := by
  cases kind with
  | addImport inFile moduleRef importAlias =>
    show importsOf (out.insert inFile _) file = _
    rw [importsOf_insert]
    simp only [OperationKind.importFile, OperationKind.onFile, Option.some.injEq]
    by_cases h : file = inFile
    · subst h
      rw [if_pos rfl, if_pos rfl]
      rfl
    · rw [if_neg h, if_neg fun he => h he.symm]
  | removeImport inFile moduleRef =>
    simp only [OperationKind.importFile, OperationKind.onFile, Option.some.injEq]
    cases hin : out[inFile]? with
    | none =>
      have hsame : replayImport out (.removeImport inFile moduleRef) = out := by
        simp only [replayImport, hin]
      rw [hsame]
      by_cases h : inFile = file
      · subst h
        simp [importsOf, hin]
      · rw [if_neg h]
    | some imports =>
      have hdrop : replayImport out (.removeImport inFile moduleRef) =
          out.insert inFile (imports.filter fun m => decide (m.reference ≠ moduleRef)) := by
        simp only [replayImport, hin]
      rw [hdrop, importsOf_insert]
      by_cases h : file = inFile
      · subst h
        simp [importsOf, hin]
      · rw [if_neg h, if_neg fun he => h he.symm]
  | _ => rfl

/-- **The replay, file by file**: the operations of the file, in order. -/
theorem importsOf_foldl (file : String) (kinds : List OperationKind) (out : ImportMap) :
    importsOf (replayImports out kinds) file = (kinds.filter fun kind => decide (kind.importFile = some file)).foldl
        OperationKind.onFile (importsOf out file) := by
  induction kinds generalizing out with
  | nil => rfl
  | cons kind kinds ih =>
    have hstep := importsOf_replayImport out file kind
    show importsOf (replayImports (replayImport out kind) kinds) file = _
    rw [ih, hstep]
    by_cases h : kind.importFile = some file
    · rw [if_pos h, filter_cons, if_pos (decide_eq_true h), foldl_cons]
    · rw [if_neg h, filter_cons, if_neg (by simpa using h)]

theorem mem_foldl_removals {file : String} {m : ImportRef} (removed : List ImportRef) (imports : List ImportRef) :
    m ∈ (removed.map fun r => OperationKind.removeImport file r.reference).foldl OperationKind.onFile imports ↔
      m ∈ imports ∧ ∀ r ∈ removed, r.reference ≠ m.reference := by
  induction removed generalizing imports with
  | nil => simp
  | cons r removed ih =>
    rw [map_cons, foldl_cons, ih]
    simp only [OperationKind.onFile, mem_filter, decide_eq_true_eq, forall_mem_cons,
      and_assoc, ne_eq, @eq_comm _ m.reference]

theorem mem_foldl_additions {file : String} {m : ImportRef} (added : List ImportRef) (imports : List ImportRef) :
    m ∈ (added.map fun a => OperationKind.addImport file a.reference (explicitAlias a)).foldl
        OperationKind.onFile imports ↔ m ∈ imports ∨ m ∈ added := by
  induction added generalizing imports with
  | nil => simp
  | cons a added ih =>
    rw [map_cons, foldl_cons, ih]
    simp only [OperationKind.onFile, explicitAlias_getD, mem_insertImport, mem_cons]
    rw [or_assoc, or_left_comm]

/-! ## The operations of one file -/

theorem filter_flatMap_of_lookup {β : Type} (file : String) (f : String × β → List OperationKind)
    (hf : ∀ entry, ∀ kind ∈ f entry, kind.importFile = some entry.1) :
    ∀ entries : List (String × β), (entries.map Prod.fst).Nodup →
      (entries.flatMap f).filter (fun kind => decide (kind.importFile = some file)) =
        match entries.lookup file with
        | some value => f (file, value)
        | none => []
  | [], _ => rfl
  | (key, value) :: entries, hnd => by
    rw [map_cons, nodup_cons] at hnd
    have ih := filter_flatMap_of_lookup file f hf entries hnd.2
    rw [flatMap_cons, filter_append, ih]
    by_cases h : file = key
    · subst h
      have hrest : entries.lookup file = none := by
        rw [List.lookup_eq_none_iff]
        intro entry hentry
        have hne : file ≠ entry.1 := by
          rintro rfl
          exact hnd.1 (mem_map.mpr ⟨entry, hentry, rfl⟩)
        exact bne_iff_ne.mpr hne
      have hall : (f (file, value)).filter (fun kind => decide (kind.importFile = some file)) =
          f (file, value) :=
        filter_eq_self.mpr fun kind hkind => decide_eq_true (hf _ kind hkind)
      rw [hall, hrest, lookup_cons_self, append_nil]
    · have hnone : (f (key, value)).filter (fun kind => decide (kind.importFile = some file)) =
          [] := by
        refine filter_eq_nil_iff.mpr fun kind hkind => ?_
        rw [hf _ kind hkind]
        simpa using fun he : key = file => h he.symm
      rw [hnone, nil_append, lookup_cons, beq_false_of_ne h]

/-- **The operations a publish emits for one file**: what it dropped, then what it added. -/
theorem filter_importOps (oldImports newImports : ImportMap) (file : String) :
    (importOps oldImports newImports).filter (fun kind => decide (kind.importFile = some file)) =
      ((importsOf oldImports file).filter fun m => decide (m ∉ importsOf newImports file)).map
          (fun m => OperationKind.removeImport file m.reference) ++
        ((importsOf newImports file).filter fun m => decide (m ∉ importsOf oldImports file)).map
          (fun m => OperationKind.addImport file m.reference (explicitAlias m)) := by
  unfold importOps
  rw [filter_append, filter_flatMap_of_lookup file _ _ _ (nodup_keys_toList newImports),
    filter_flatMap_of_lookup file _ _ _ (nodup_keys_toList oldImports), lookup_toList, lookup_toList]
  · unfold importsOf
    cases hnew : newImports[file]? with
    | some modules =>
      -- a file of the new program: its own entry, and nothing in the second pass
      have hmem : file ∈ newImports := Std.ExtTreeMap.mem_iff_isSome_getElem?.mpr (by simp [hnew])
      cases hold : oldImports[file]? with
      | some imports => simp [hmem, hold]
      | none => simp [hold]
    | none =>
      -- a file that is gone: everything it imported, in the second pass
      have hnot : file ∉ newImports := fun h => by
        have hsome := Std.ExtTreeMap.mem_iff_isSome_getElem?.mp h
        rw [hnew] at hsome
        cases hsome
      cases oldImports[file]? with
      | some imports => simp [hnot]
      | none => simp
  · intro entry kind hkind
    split at hkind
    · cases hkind
    · obtain ⟨m, -, rfl⟩ := mem_map.mp hkind
      rfl
  · intro entry kind hkind
    rcases mem_append.mp hkind with h | h
    · obtain ⟨m, -, rfl⟩ := mem_map.mp h
      rfl
    · obtain ⟨m, -, rfl⟩ := mem_map.mp h
      rfl

/-- **What a publish leaves of a file's imports**: an old one none of whose module was dropped, or a
new one that was added. -/
theorem mem_importsOf_importOps (oldImports newImports : ImportMap) (file : String) (m : ImportRef) :
    m ∈ importsOf (replayImports oldImports (importOps oldImports newImports)) file ↔
      (m ∈ importsOf oldImports file ∧ ∀ r ∈ importsOf oldImports file,
          r ∉ importsOf newImports file → r.reference ≠ m.reference) ∨
        (m ∈ importsOf newImports file ∧ m ∉ importsOf oldImports file) := by
  rw [importsOf_foldl, filter_importOps, foldl_append, mem_foldl_additions, mem_foldl_removals]
  simp only [mem_filter, decide_eq_true_eq, and_imp]

/-! ## The other operations of a publish -/

variable {hashes : Hashes} {debugStr : String → String} {inputs : DiffInputs}

/-- The operations of declarations are not about imports. -/
theorem importFile_of_entry {kind : OperationKind}
    (h : (∃ r, removedOp inputs r = .ok kind) ∨ (∃ r, addedOp hashes debugStr inputs r = .ok kind) ∨
      (∃ r, renamedOp hashes inputs r = .ok kind) ∨ ∃ m, modifiedOp hashes debugStr inputs m = .ok kind) :
    kind.importFile = none := by
  rcases h with ⟨r, h⟩ | ⟨r, h⟩ | ⟨r, h⟩ | ⟨m, h⟩
  · unfold removedOp at h
    repeat' split at h
    all_goals cases h
    all_goals rfl
  · unfold addedOp at h
    repeat' split at h
    all_goals cases h
    all_goals rfl
  · unfold renamedOp at h
    repeat' split at h
    all_goals cases h
    all_goals rfl
  · simp only [modifiedOp] at h
    repeat' split at h
    all_goals cases h
    all_goals rfl

theorem of_mem_mapM {α β ε : Type} {f : α → Except ε β} : ∀ {l : List α} {ys : List β},
    l.mapM f = .ok ys → ∀ y ∈ ys, ∃ x ∈ l, f x = .ok y
  | [], ys, h => by
    cases h
    simp
  | x :: l, ys, h => by
    rw [mapM_cons] at h
    cases hx : f x with
    | error e =>
      rw [hx] at h
      cases h
    | ok y =>
      cases hl : l.mapM f with
      | error e =>
        rw [hx, hl] at h
        cases h
      | ok zs =>
        rw [hx, hl] at h
        cases h
        intro z hz
        rcases mem_cons.mp hz with rfl | hz
        · exact ⟨x, mem_cons_self, hx⟩
        · obtain ⟨x', hx', hfx⟩ := of_mem_mapM hl z hz
          exact ⟨x', mem_cons_of_mem x hx', hfx⟩

variable {ops : List OperationKind}

variable (h : diffToOps hashes debugStr inputs = .ok ops)
include h

theorem diffToOps_eq_ok :
    ∃ removed added renamed modified, inputs.diff.removed.mapM (removedOp inputs) = .ok removed ∧
      inputs.diff.added.mapM (addedOp hashes debugStr inputs) = .ok added ∧
      inputs.diff.renamed.mapM (renamedOp hashes inputs) = .ok renamed ∧
      inputs.diff.modified.mapM (modifiedOp hashes debugStr inputs) = .ok modified ∧
      ops = importOps inputs.oldImports inputs.newImports ++ removed ++ added ++ renamed ++ modified := by
  unfold diffToOps at h
  cases hremoved : inputs.diff.removed.mapM (removedOp inputs) with
  | error e => rw [hremoved] at h; cases h
  | ok removed =>
  cases hadded : inputs.diff.added.mapM (addedOp hashes debugStr inputs) with
  | error e => rw [hremoved, hadded] at h; cases h
  | ok added =>
  cases hrenamed : inputs.diff.renamed.mapM (renamedOp hashes inputs) with
  | error e => rw [hremoved, hadded, hrenamed] at h; cases h
  | ok renamed =>
  cases hmodified : inputs.diff.modified.mapM (modifiedOp hashes debugStr inputs) with
  | error e => rw [hremoved, hadded, hrenamed, hmodified] at h; cases h
  | ok modified =>
  rw [hremoved, hadded, hrenamed, hmodified] at h
  exact ⟨removed, added, renamed, modified, rfl, rfl, rfl, rfl, (Except.ok.inj h).symm⟩

/-- **A publish's operations are its import operations and others that are about no file.** -/
theorem diffToOps_imports :
    ∃ rest, ops = importOps inputs.oldImports inputs.newImports ++ rest ∧ ∀ kind ∈ rest, kind.importFile = none := by
  obtain ⟨removed, added, renamed, modified, hremoved, hadded, hrenamed, hmodified, rfl⟩ :=
    diffToOps_eq_ok h
  refine ⟨removed ++ added ++ renamed ++ modified, by simp, fun kind hkind => ?_⟩
  apply importFile_of_entry
  rcases mem_append.mp hkind with hkind | hkind
  · rcases mem_append.mp hkind with hkind | hkind
    · rcases mem_append.mp hkind with hkind | hkind
      · obtain ⟨r, -, hr⟩ := of_mem_mapM hremoved kind hkind
        exact .inl ⟨r, hr⟩
      · obtain ⟨r, -, hr⟩ := of_mem_mapM hadded kind hkind
        exact .inr (.inl ⟨r, hr⟩)
    · obtain ⟨r, -, hr⟩ := of_mem_mapM hrenamed kind hkind
      exact .inr (.inr (.inl ⟨r, hr⟩))
  · obtain ⟨m, -, hm⟩ := of_mem_mapM hmodified kind hkind
    exact .inr (.inr (.inr ⟨m, hm⟩))

/-- Replaying a publish is replaying its import operations. -/
theorem importsOf_diffToOps (file : String) :
    importsOf (replayImports inputs.oldImports ops) file = importsOf (replayImports inputs.oldImports
        (importOps inputs.oldImports inputs.newImports)) file := by
  obtain ⟨rest, rfl, hrest⟩ := diffToOps_imports h
  have hnone : rest.filter (fun kind => decide (kind.importFile = some file)) = [] := by
    refine filter_eq_nil_iff.mpr fun kind hkind => ?_
    rw [hrest kind hkind]
    simp
  rw [importsOf_foldl, importsOf_foldl, filter_append, hnone, append_nil]

omit h

/-! ## The round trip -/

/-- **No module loses an alias while it keeps another**, in any file. -/
def KeepsModules (oldImports newImports : ImportMap) : Prop :=
  ∀ file, ∀ kept ∈ importsOf oldImports file, kept ∈ importsOf newImports file →
    ∀ m ∈ importsOf oldImports file, m.reference = kept.reference → m ∈ importsOf newImports file

/-- The import operations of a publish replay to the new imports when no module loses one alias and
keeps another, and only then: the removal takes every alias of the module, and no addition brings
the kept one back. -/
theorem sameImports_importOps_iff (oldImports newImports : ImportMap) :
    SameImports (replayImports oldImports (importOps oldImports newImports)) newImports ↔
      KeepsModules oldImports newImports := by
  constructor
  · intro hsame file kept hkept hnew m hm hreference
    have hleft := (hsame file kept).mpr hnew
    rw [mem_importsOf_importOps] at hleft
    rcases hleft with ⟨-, hspared⟩ | ⟨-, hnot⟩
    · by_contra hdropped
      exact hspared m hm hdropped hreference
    · exact absurd hkept hnot
  · intro hkeeps file m
    rw [mem_importsOf_importOps]
    constructor
    · rintro (⟨hold, hspared⟩ | ⟨hnew, -⟩)
      · by_contra hdropped
        exact hspared m hold hdropped rfl
      · exact hnew
    · intro hnew
      by_cases hold : m ∈ importsOf oldImports file
      · refine .inl ⟨hold, fun r hr hdropped hreference => ?_⟩
        exact hdropped (hkeeps file m hold hnew r hr hreference)
      · exact .inr ⟨hnew, hold⟩

/-- **A publish's operations replay to the new imports exactly when no file drops one alias of a
module and keeps another**, whatever else the publish changes. -/
theorem publish_imports_iff (hashes : Hashes) (debugStr : String → String) (a b : Program)
    (oldEffects : Std.ExtTreeMap SigId EffectSet) (oldImports newImports : ImportMap)
    (modulePrefixes : Std.ExtTreeMap String String) : ∃ ops, diffToOps hashes debugStr
        (publishInputs hashes debugStr a b oldEffects oldImports newImports modulePrefixes) = .ok ops ∧
      (SameImports (replayImports oldImports ops) newImports ↔ KeepsModules oldImports newImports) := by
  let inputs := publishInputs hashes debugStr a b oldEffects oldImports newImports modulePrefixes
  obtain ⟨ops, hops, -⟩ : ∃ ops, diffToOps hashes debugStr inputs = .ok ops ∧ _ :=
    diffToOps_spec rfl rfl rfl
  refine ⟨ops, hops, ?_⟩
  rw [← sameImports_importOps_iff]
  have hfile : ∀ file, importsOf (replayImports oldImports ops) file =
      importsOf (replayImports oldImports (importOps oldImports newImports)) file :=
    importsOf_diffToOps hops
  unfold SameImports
  simp only [hfile]

/-- A file with one module under two names. -/
def sqlTwice : ImportMap :=
  (∅ : ImportMap).insert "<source>" [⟨"std.sql", "db"⟩, ⟨"std.sql", "sql"⟩]

/-- The file with the second name dropped. -/
def sqlOnce : ImportMap := (∅ : ImportMap).insert "<source>" [⟨"std.sql", "sql"⟩]

/-- **Dropping one name of a module loses the other**: the new program imports `std.sql` as `sql`, and
the replay of what was recorded imports nothing. -/
theorem dropped_alias_takes_module : (⟨"std.sql", "sql"⟩ : ImportRef) ∈ importsOf sqlOnce "<source>" ∧
      importsOf (replayImports sqlTwice (importOps sqlTwice sqlOnce)) "<source>" = [] ∧
      ¬ SameImports (replayImports sqlTwice (importOps sqlTwice sqlOnce)) sqlOnce := by
  have hnew : importsOf sqlOnce "<source>" = [⟨"std.sql", "sql"⟩] := by
    rw [sqlOnce, importsOf_insert, if_pos rfl]
  have hold : importsOf sqlTwice "<source>" = [⟨"std.sql", "db"⟩, ⟨"std.sql", "sql"⟩] := by
    rw [sqlTwice, importsOf_insert, if_pos rfl]
  have hnone : importsOf (replayImports sqlTwice (importOps sqlTwice sqlOnce)) "<source>" = [] := by
    rw [importsOf_foldl, filter_importOps, hnew, hold]
    decide
  refine ⟨by rw [hnew]; exact mem_cons_self, hnone, fun hsame => ?_⟩
  have hmem := (hsame "<source>" ⟨"std.sql", "sql"⟩).mpr (by rw [hnew]; exact mem_cons_self)
  rw [hnone] at hmem
  cases hmem

end LexLang.Vcs
