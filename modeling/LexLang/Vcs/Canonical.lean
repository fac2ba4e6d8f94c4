/-
# LexLang.Vcs.Canonical — the content address of an operation

An operation's id is the SHA-256 of its canonical JSON. The pre-image is modelled as the JSON
object's list of fields (`canonicalForm`), in the order serde writes them, and the hash as a
`Digest`: any injective map of pre-images to ids.

Two operations with one id agree on kind, parents and intent (`opId_eq_iff`). What the pre-image
leaves out is the transition an operation produces, which only the record holds.
-/
import LexLang.Vcs.Operation
import Mathlib.Data.Countable.Basic
import Mathlib.Logic.Equiv.List

namespace LexLang.Vcs

open Function List

/-! ## The pre-image -/

/-- A field's value in the canonical JSON. -/
inductive FieldValue
  | str (s : String)
  | num (n : Nat)
  | strs (ss : List String)
  deriving DecidableEq

/-- A canonical JSON object: its fields in the order they are written. -/
abbrev CanonicalForm := List (String × FieldValue)

/-- A string field that is left out when absent. -/
def optStr (key : String) (value : Option String) : CanonicalForm :=
  match value with
  | some s => [(key, .str s)]
  | none => []

/-- A numeric field that is left out when absent. -/
def optNum (key : String) (value : Option UInt64) : CanonicalForm :=
  match value with
  | some n => [(key, .num n.toNat)]
  | none => []

/-- The fields of a kind, the tag `op` first. -/
def kindFields : OperationKind → CanonicalForm
  | .addFunction sigId stageId effects budgetCost inFile =>
    [("op", .str "add_function"), ("sig_id", .str sigId), ("stage_id", .str stageId),
      ("effects", .strs effects.toList)] ++
      optNum "budget_cost" budgetCost ++ optStr "in_file" inFile
  | .removeFunction sigId lastStageId =>
    [("op", .str "remove_function"), ("sig_id", .str sigId),
      ("last_stage_id", .str lastStageId)]
  | .modifyBody sigId fromStageId toStageId fromBudget toBudget toSigId =>
    [("op", .str "modify_body"), ("sig_id", .str sigId), ("from_stage_id", .str fromStageId),
      ("to_stage_id", .str toStageId)] ++
      optNum "from_budget" fromBudget ++ optNum "to_budget" toBudget ++
      optStr "to_sig_id" toSigId
  | .renameSymbol fromSig toSig bodyStageId inFile =>
    [("op", .str "rename_symbol"), ("from", .str fromSig), ("to", .str toSig),
      ("body_stage_id", .str bodyStageId)] ++ optStr "in_file" inFile
  | .changeEffectSig sigId fromStageId toStageId fromEffects toEffects fromBudget toBudget
      toSigId =>
      [("op", .str "change_effect_sig"), ("sig_id", .str sigId),
        ("from_stage_id", .str fromStageId), ("to_stage_id", .str toStageId),
        ("from_effects", .strs fromEffects.toList), ("to_effects", .strs toEffects.toList)] ++
        optNum "from_budget" fromBudget ++ optNum "to_budget" toBudget ++
        optStr "to_sig_id" toSigId
  | .addImport inFile moduleRef importAlias =>
    [("op", .str "add_import"), ("in_file", .str inFile), ("module", .str moduleRef)] ++
      optStr "alias" importAlias
  | .removeImport inFile moduleRef =>
    [("op", .str "remove_import"), ("in_file", .str inFile), ("module", .str moduleRef)]
  | .addType sigId stageId inFile =>
    [("op", .str "add_type"), ("sig_id", .str sigId), ("stage_id", .str stageId)] ++
      optStr "in_file" inFile
  | .removeType sigId lastStageId =>
    [("op", .str "remove_type"), ("sig_id", .str sigId), ("last_stage_id", .str lastStageId)]
  | .modifyType sigId fromStageId toStageId toSigId =>
    [("op", .str "modify_type"), ("sig_id", .str sigId), ("from_stage_id", .str fromStageId),
      ("to_stage_id", .str toStageId)] ++ optStr "to_sig_id" toSigId
  | .merge resolved => [("op", .str "merge"), ("resolved", .num resolved)]
  | .inlineLet sigId fromStageId toStageId letNode bindingName fromBudget toBudget =>
    [("op", .str "inline_let"), ("sig_id", .str sigId), ("from_stage_id", .str fromStageId),
      ("to_stage_id", .str toStageId), ("let_node", .str letNode),
      ("binding_name", .str bindingName)] ++
      optNum "from_budget" fromBudget ++ optNum "to_budget" toBudget
  | .renameLocal sigId fromStageId toStageId letNode oldName newName fromBudget toBudget =>
    [("op", .str "rename_local"), ("sig_id", .str sigId), ("from_stage_id", .str fromStageId),
      ("to_stage_id", .str toStageId), ("let_node", .str letNode), ("old_name", .str oldName),
      ("new_name", .str newName)] ++
      optNum "from_budget" fromBudget ++ optNum "to_budget" toBudget
  | .replaceMatchArm sigId fromStageId toStageId matchNode armIndex fromBudget toBudget =>
    [("op", .str "replace_match_arm"), ("sig_id", .str sigId),
      ("from_stage_id", .str fromStageId), ("to_stage_id", .str toStageId),
      ("match_node", .str matchNode), ("arm_index", .num armIndex)] ++
      optNum "from_budget" fromBudget ++ optNum "to_budget" toBudget
  | .candidate sigId stageId =>
    [("op", .str "candidate"), ("sig_id", .str sigId), ("stage_id", .str stageId)]
  | .promote sigId winnerCandidate winnerStageId supersedes fromStageId fromBudget toBudget =>
    [("op", .str "promote"), ("sig_id", .str sigId),
      ("winner_candidate", .str winnerCandidate), ("winner_stage_id", .str winnerStageId),
      ("supersedes", .strs supersedes)] ++
      optStr "from_stage_id" fromStageId ++ optNum "from_budget" fromBudget ++
      optNum "to_budget" toBudget
  | .setFiles manifest => [("op", .str "set_files"), ("manifest", .str manifest)]

/-- **The canonical pre-image** of an operation: its kind's fields, its parents as a sorted set, and
the intent when there is one. The transition it produces is not part of it. -/
def Operation.canonicalForm (op : Operation) : CanonicalForm :=
  kindFields op.kind ++ [("parents", .strs (sortedSet op.parents))] ++
    optStr "intent_id" op.intentId

/-! ## Reading the pre-image back -/

section Decode

/-- The string of a string value. -/
def FieldValue.asStr : FieldValue → Option String
  | .str s => some s
  | _ => none

/-- The number of a numeric value. -/
def FieldValue.asNum : FieldValue → Option Nat
  | .num n => some n
  | _ => none

/-- The 64-bit number of a numeric value. -/
def FieldValue.asU64 (value : FieldValue) : Option UInt64 := value.asNum.map UInt64.ofNat

/-- The strings of a list value. -/
def FieldValue.asStrs : FieldValue → Option (List String)
  | .strs ss => some ss
  | _ => none

/-- A string field. -/
def getStr (form : CanonicalForm) (key : String) : Option String :=
  (form.lookup key).bind FieldValue.asStr

/-- A numeric field. -/
def getNum (form : CanonicalForm) (key : String) : Option Nat :=
  (form.lookup key).bind FieldValue.asNum

/-- A list field. -/
def getStrs (form : CanonicalForm) (key : String) : Option (List String) :=
  (form.lookup key).bind FieldValue.asStrs

/-- A 64-bit field. -/
def getU64 (form : CanonicalForm) (key : String) : Option UInt64 :=
  (form.lookup key).bind FieldValue.asU64

/-- A set field. -/
def getSet (form : CanonicalForm) (key : String) : Option EffectSet :=
  (getStrs form key).map fun ss => Std.ExtTreeSet.ofList ss

/-- The kind a pre-image was written from. -/
def decodeKind (form : CanonicalForm) : Option OperationKind := do
  match ← getStr form "op" with
  | "add_function" =>
    return .addFunction (← getStr form "sig_id") (← getStr form "stage_id")
      (← getSet form "effects") (getU64 form "budget_cost") (getStr form "in_file")
  | "remove_function" =>
    return .removeFunction (← getStr form "sig_id") (← getStr form "last_stage_id")
  | "modify_body" =>
    return .modifyBody (← getStr form "sig_id") (← getStr form "from_stage_id")
      (← getStr form "to_stage_id") (getU64 form "from_budget") (getU64 form "to_budget")
      (getStr form "to_sig_id")
  | "rename_symbol" =>
    return .renameSymbol (← getStr form "from") (← getStr form "to")
      (← getStr form "body_stage_id") (getStr form "in_file")
  | "change_effect_sig" =>
    return .changeEffectSig (← getStr form "sig_id") (← getStr form "from_stage_id")
      (← getStr form "to_stage_id") (← getSet form "from_effects")
      (← getSet form "to_effects") (getU64 form "from_budget") (getU64 form "to_budget")
      (getStr form "to_sig_id")
  | "add_import" =>
    return .addImport (← getStr form "in_file") (← getStr form "module") (getStr form "alias")
  | "remove_import" => return .removeImport (← getStr form "in_file") (← getStr form "module")
  | "add_type" =>
    return .addType (← getStr form "sig_id") (← getStr form "stage_id") (getStr form "in_file")
  | "remove_type" =>
    return .removeType (← getStr form "sig_id") (← getStr form "last_stage_id")
  | "modify_type" =>
    return .modifyType (← getStr form "sig_id") (← getStr form "from_stage_id")
      (← getStr form "to_stage_id") (getStr form "to_sig_id")
  | "merge" => return .merge (← getNum form "resolved")
  | "inline_let" =>
    return .inlineLet (← getStr form "sig_id") (← getStr form "from_stage_id")
      (← getStr form "to_stage_id") (← getStr form "let_node") (← getStr form "binding_name")
      (getU64 form "from_budget") (getU64 form "to_budget")
  | "rename_local" =>
    return .renameLocal (← getStr form "sig_id") (← getStr form "from_stage_id")
      (← getStr form "to_stage_id") (← getStr form "let_node") (← getStr form "old_name")
      (← getStr form "new_name") (getU64 form "from_budget") (getU64 form "to_budget")
  | "replace_match_arm" =>
    return .replaceMatchArm (← getStr form "sig_id") (← getStr form "from_stage_id")
      (← getStr form "to_stage_id") (← getStr form "match_node") (← getNum form "arm_index")
      (getU64 form "from_budget") (getU64 form "to_budget")
  | "candidate" => return .candidate (← getStr form "sig_id") (← getStr form "stage_id")
  | "promote" =>
    return .promote (← getStr form "sig_id") (← getStr form "winner_candidate")
      (← getStr form "winner_stage_id") (← getStrs form "supersedes")
      (getStr form "from_stage_id") (getU64 form "from_budget") (getU64 form "to_budget")
  | "set_files" => return .setFiles (← getStr form "manifest")
  | _ => none

theorem lookup_optStr (key k : String) (value : Option String) :
    (optStr key value).lookup k = if k == key then value.map .str else none := by
  unfold optStr
  cases value <;> cases h : k == key <;> simp [List.lookup_cons, h]

theorem lookup_optNum (key k : String) (value : Option UInt64) : (optNum key value).lookup k =
      if k == key then value.map fun n => FieldValue.num n.toNat else none := by
  unfold optNum
  cases value <;> cases h : k == key <;> simp [List.lookup_cons, h]

theorem asStr_map_str (value : Option String) : (value.map FieldValue.str).bind FieldValue.asStr = value := by
  cases value <;> rfl

theorem asU64_map_num (value : Option UInt64) :
    (value.map fun n => FieldValue.num n.toNat).bind FieldValue.asU64 = value := by
  cases value <;> simp [FieldValue.asU64, FieldValue.asNum]

theorem ofList_toList (effects : EffectSet) : Std.ExtTreeSet.ofList effects.toList = effects := by
  ext k
  simp

theorem bind_getStr {β : Type} {form : CanonicalForm} {key s : String} (f : String → Option β)
    (h : getStr form key = some s) : getStr form key >>= f = f s := by
  rw [h]
  rfl

/-- **A pre-image determines its kind.** -/
theorem decodeKind_canonicalForm (op : Operation) : decodeKind op.canonicalForm = some op.kind := by
  obtain ⟨kind, parents, intentId⟩ := op
  unfold decodeKind
  -- the tag comes first, and only its branch is read
  cases kind <;>
  · refine (bind_getStr _ rfl).trans ?_
    simp [Operation.canonicalForm, kindFields, getStr, getNum, getStrs, getU64, getSet,
      List.lookup_append, lookup_cons, lookup_optStr, lookup_optNum, FieldValue.asStr,
      FieldValue.asNum, FieldValue.asStrs, asStr_map_str, asU64_map_num, ofList_toList]

/-- No kind has a field of its own called `parents` or `intent_id`. -/
theorem lookup_kindFields (kind : OperationKind) {key : String}
    (hkey : key = "parents" ∨ key = "intent_id") : (kindFields kind).lookup key = none := by
  rcases hkey with rfl | rfl <;> cases kind <;>
    simp [kindFields, List.lookup_append, lookup_cons, lookup_optStr, lookup_optNum]

theorem getStrs_parents (op : Operation) : getStrs op.canonicalForm "parents" = some (sortedSet op.parents) := by
  unfold getStrs Operation.canonicalForm
  rw [List.lookup_append, List.lookup_append, lookup_kindFields _ (.inl rfl)]
  simp [FieldValue.asStrs]

theorem getStr_intentId (op : Operation) : getStr op.canonicalForm "intent_id" = op.intentId := by
  unfold getStr Operation.canonicalForm
  rw [List.lookup_append, List.lookup_append, lookup_kindFields _ (.inr rfl), lookup_optStr]
  simp [lookup_cons, asStr_map_str]

end Decode

/-- **Two pre-images agree exactly when kind, parents (as a set) and intent do.** -/
theorem canonicalForm_eq_iff (op op' : Operation) : op.canonicalForm = op'.canonicalForm ↔
      op.kind = op'.kind ∧ sortedSet op.parents = sortedSet op'.parents ∧ op.intentId = op'.intentId := by
  constructor
  · intro h
    have hkind := decodeKind_canonicalForm op
    have hparents := getStrs_parents op
    have hintent := getStr_intentId op
    rw [h, decodeKind_canonicalForm] at hkind
    rw [h, getStrs_parents] at hparents
    rw [h, getStr_intentId] at hintent
    exact ⟨(Option.some.inj hkind).symm, (Option.some.inj hparents).symm, hintent.symm⟩
  · rintro ⟨hkind, hparents, hintent⟩
    unfold Operation.canonicalForm
    rw [hkind, hparents, hintent]

/-! ## Ids and records -/

/-- **The hash**, as far as the log relies on it: a map of pre-images to ids without collisions. -/
structure Digest where
  hashBytes : CanonicalForm → OpId
  injective : Injective hashBytes

/-- Encoding an operation's canonical form is versioned; there is one version. -/
inductive OperationFormat
  | v1
  deriving DecidableEq

/-- The format every new operation uses. -/
def OperationFormat.current : OperationFormat := .v1

/-- **What the log keeps of an operation**: its id, the operation, and the transition it produces. -/
structure OperationRecord where
  opId : OpId
  formatVersion : OperationFormat
  op : Operation
  produces : StageTransition
  deriving DecidableEq

variable (digest : Digest)

/-- The id of an operation. -/
def Operation.opId (op : Operation) : OpId := digest.hashBytes op.canonicalForm

/-- The record of an operation that produced a transition. -/
def OperationRecord.new (op : Operation) (produces : StageTransition) : OperationRecord :=
  { opId := op.opId digest, formatVersion := .current, op, produces }

@[simp] theorem OperationRecord.new_opId (op : Operation) (produces : StageTransition) :
    (OperationRecord.new digest op produces).opId = op.opId digest := rfl

@[simp] theorem OperationRecord.new_op (op : Operation) (produces : StageTransition) :
    (OperationRecord.new digest op produces).op = op := rfl

@[simp] theorem OperationRecord.new_produces (op : Operation) (produces : StageTransition) :
    (OperationRecord.new digest op produces).produces = produces := rfl

/-- **One id, one kind, one set of parents, one intent.** -/
theorem opId_eq_iff (op op' : Operation) : op.opId digest = op'.opId digest ↔
      op.kind = op'.kind ∧ sortedSet op.parents = sortedSet op'.parents ∧ op.intentId = op'.intentId := by
  unfold Operation.opId
  rw [digest.injective.eq_iff, canonicalForm_eq_iff]

/-! ## A digest to evaluate runs with

Pre-images are countably many, so digests exist. This one gives listed pre-images short ids. -/

section Table

instance countableString : Countable String := by
  have hchar : Injective Char.toNat := fun _ _ h => Char.ext (UInt32.toNat_inj.mp h)
  have hcodes : Injective fun s : String => s.toList.map Char.toNat := fun _ _ h =>
    String.toList_injective (map_injective_iff.mpr hchar h)
  exact hcodes.countable

/-- A field value as a value of a sum type. -/
def FieldValue.toSum : FieldValue → String ⊕ Nat ⊕ List String
  | .str s => .inl s
  | .num n => .inr (.inl n)
  | .strs ss => .inr (.inr ss)

theorem FieldValue.toSum_injective : Injective FieldValue.toSum := by
  intro v w h
  cases v <;> cases w <;> simp_all [FieldValue.toSum]

instance countableFieldValue : Countable FieldValue := FieldValue.toSum_injective.countable

theorem exists_code : ∃ code : CanonicalForm → Nat, Injective code :=
  (inferInstance : Countable CanonicalForm).exists_injective_nat

/-- The table's id of a listed pre-image, else as many hash signs as its code says. -/
noncomputable def tableHash (table : List (CanonicalForm × OpId)) (form : CanonicalForm) : OpId :=
  match table.lookup form with
  | some id => id
  | none => String.ofList ('#' :: replicate (exists_code.choose form) '#')

theorem mem_of_lookup {table : List (CanonicalForm × OpId)} {form : CanonicalForm} {id : OpId}
    (h : table.lookup form = some id) : (form, id) ∈ table := by
  obtain ⟨before, after, rfl, _⟩ := lookup_eq_some_iff.mp h
  simp

/-- Different pre-images get different ids, when the table's ids are different and free of hash
signs. -/
theorem tableHash_injective {table : List (CanonicalForm × OpId)}
    (hids : (table.map Prod.snd).Nodup) (hplain : ∀ entry ∈ table, '#' ∉ entry.2.toList) :
    Injective (tableHash table) := by
  have hhash : ∀ {form : CanonicalForm} {id : OpId} {n : Nat}, table.lookup form = some id →
      id ≠ String.ofList ('#' :: replicate n '#') := by
    rintro form id n h rfl
    exact hplain _ (mem_of_lookup h) (by simp)
  intro form form' h
  unfold tableHash at h
  cases hf : table.lookup form with
  | some id =>
    cases hf' : table.lookup form' with
    | some id' =>
      simp only [hf, hf'] at h
      subst h
      exact (Prod.mk.inj (inj_on_of_nodup_map hids (mem_of_lookup hf)
        (mem_of_lookup hf') rfl)).1
    | none =>
      simp only [hf, hf'] at h
      exact absurd h (hhash hf)
  | none =>
    cases hf' : table.lookup form' with
    | some id' =>
      simp only [hf, hf'] at h
      exact absurd h.symm (hhash hf')
    | none =>
      simp only [hf, hf'] at h
      have hlen := congrArg (fun s : String => s.toList.length) h
      exact exists_code.choose_spec (by simpa using hlen)

/-- **The digest of a table.** -/
noncomputable def Digest.ofTable (table : List (CanonicalForm × OpId))
    (hids : (table.map Prod.snd).Nodup) (hplain : ∀ entry ∈ table, '#' ∉ entry.2.toList) :
    Digest where
  hashBytes := tableHash table
  injective := tableHash_injective hids hplain

end Table

end LexLang.Vcs
