/-
# LexLang.Trace.Readable — the values that a trace keeps

`value_to_json` writes several kinds of values alike: a tuple as a list, bytes and closures as strings, a float
that is not finite as null. `readable_iff`: what `json_to_value` reads back is the value that was written exactly
when it is `Readable`.

A record is read back with its fields in order, and with the shape that such a record is given when it is made.
The inline caches tell records of one shape apart by the order of their fields.
-/
import LexLang.Trace.ValueJson

namespace LexLang.Trace

open LexLang.Machine (Value Host BodyHash)
open List Option

/-! ## Readable values -/

/-- A record that is read back as a variant. -/
def looksLikeVariant (fields : List (String × Value)) : Bool :=
  match fields.lookup "$variant", fields.lookup "args" with
  | some (.str _), some (.list _) => true
  | _, _ => false

section Readable

variable (host : Host)

mutual

/-- **A value that is read back as it is.** A finite float is the one of its bits. -/
def Readable : Value → Prop
  | .int _ | .bool _ | .str _ | .unit => True
  | .float x => (x.toBits.toBitVec >>> 52) &&& 0x7ff#64 ≠ 0x7ff#64 ∧ Float.ofBits ⟨x.toBits.toBitVec⟩ = x
  | .list items => ReadableAll items
  | .variant _ args => ReadableAll args
  | .record shapeId fields =>
    ReadableFields fields ∧ fields.Pairwise (fun a b => a.1 ≤ b.1) ∧
      shapeId = host.dynamicShape (fields.map Prod.fst) ∧ looksLikeVariant fields = false
  | _ => False

def ReadableAll : List Value → Prop
  | [] => True
  | v :: vs => Readable v ∧ ReadableAll vs

def ReadableFields : List (String × Value) → Prop
  | [] => True
  | (_, v) :: fields => Readable v ∧ ReadableFields fields

end

end Readable

/-! ## Reading back -/

section ReadBack

variable {shown : Shown} {host : Host}

theorem intOfJson_toInt (n : Int64) : intOfJson n.toInt = .int n := by
  unfold intOfJson
  rw [Int64.ofInt_toInt, if_pos rfl]

/-- A finite float is written with its bits, every other one as null. -/
theorem jsonFloat_cases (x : Float) :
    (∃ f : Json.FiniteFloat, jsonFloat x = .number (.float f) ∧ f.bits = x.toBits.toBitVec ∧
      (x.toBits.toBitVec >>> 52) &&& 0x7ff#64 ≠ 0x7ff#64) ∨
    (jsonFloat x = .null ∧ ¬ (x.toBits.toBitVec >>> 52) &&& 0x7ff#64 ≠ 0x7ff#64) := by
  unfold jsonFloat
  dsimp only
  by_cases hfinite : (x.toBits.toBitVec >>> 52) &&& 0x7ff#64 ≠ 0x7ff#64
  · rw [dif_pos hfinite]
    exact .inl ⟨_, rfl, rfl, hfinite⟩
  · rw [dif_neg hfinite]
    exact .inr ⟨rfl, hfinite⟩

theorem itemsOfJson_itemsToJson (items : List Value) :
    itemsOfJson host (itemsToJson shown items) = items.map fun v => json_to_value host (value_to_json shown v) := by
  induction items with
  | nil => rw [itemsToJson, itemsOfJson, map_nil]
  | cons v items ih => rw [itemsToJson, itemsOfJson, ih, map_cons]

theorem fieldsOfJson_fieldsToJson (fields : List (String × Value)) : fieldsOfJson host (fieldsToJson shown fields) =
      fields.map fun field => (field.1, json_to_value host (value_to_json shown field.2)) := by
  induction fields with
  | nil => rw [fieldsToJson, fieldsOfJson, map_nil]
  | cons field fields ih =>
    obtain ⟨name, v⟩ := field
    rw [fieldsToJson, fieldsOfJson, ih, map_cons]

theorem lookup_fieldsToJson (fields : List (String × Value)) (name : String) :
    (fieldsToJson shown fields).lookup name = (fields.lookup name).map (value_to_json shown) := by
  induction fields with
  | nil =>
    rw [fieldsToJson]
    rfl
  | cons field fields ih =>
    obtain ⟨key, v⟩ := field
    rw [fieldsToJson, lookup_cons, lookup_cons, ih]
    cases name == key <;> rfl

/-- The array that is under `args` in a written record. -/
theorem argsOfJson_fieldsToJson (fields : List (String × Value)) :
    argsOfJson host (fieldsToJson shown fields) =
      match (fields.lookup "args").map (value_to_json shown) with
      | some (.array items) => some (itemsOfJson host items)
      | _ => none := by
  induction fields with
  | nil =>
    rw [fieldsToJson, argsOfJson]
    rfl
  | cons field fields ih =>
    obtain ⟨key, v⟩ := field
    rw [fieldsToJson, lookup_cons]
    unfold argsOfJson
    by_cases hkey : key = "args"
    · subst hkey
      rw [if_pos rfl, beq_self_eq_true]
      dsimp only [map_some]
      cases value_to_json shown v <;> rfl
    · rw [if_neg hkey, ih, beq_false_of_ne (Ne.symm hkey)]

/-! ### Which values are written as strings, and as arrays -/

theorem str_of_readable {v : Value} {s : String} (h : Readable host v) (hjson : value_to_json shown v = .string s) :
    ∃ s, v = .str s := by
  cases v with
  | str s => exact ⟨s, rfl⟩
  | float x =>
    rw [value_to_json] at hjson
    rcases jsonFloat_cases x with ⟨f, hf, -, -⟩ | ⟨hf, -⟩
    · cases hf.symm.trans hjson
    · cases hf.symm.trans hjson
  | bytes | tuple | stackRecord | stackTuple | arenaRecord | arenaTuple | closure | actor | askHandle | host =>
    exact False.elim h
  | _ =>
    rw [value_to_json] at hjson
    cases hjson

theorem list_of_readable {v : Value} {items : List Json.Value} (h : Readable host v)
    (hjson : value_to_json shown v = .array items) : ∃ items, v = .list items := by
  cases v with
  | list items => exact ⟨items, rfl⟩
  | float x =>
    rw [value_to_json] at hjson
    rcases jsonFloat_cases x with ⟨f, hf, -, -⟩ | ⟨hf, -⟩
    · cases hf.symm.trans hjson
    · cases hf.symm.trans hjson
  | bytes | tuple | stackRecord | stackTuple | arenaRecord | arenaTuple | closure | actor | askHandle | host =>
    exact False.elim h
  | _ =>
    rw [value_to_json] at hjson
    cases hjson

variable {fields : List (String × Value)}

theorem readable_of_lookup {name : String} {v : Value}
    (h : ReadableFields host fields) (hlookup : fields.lookup name = some v) : Readable host v := by
  induction fields with
  | nil => cases hlookup
  | cons field fields ih =>
    obtain ⟨key, w⟩ := field
    rw [ReadableFields] at h
    rw [lookup_cons] at hlookup
    split at hlookup
    · exact some.inj hlookup ▸ h.1
    · exact ih h.2 hlookup

/-- What the host keeps is not read back. -/
theorem json_to_value_ne_host (json : Json.Value) (object : Nat) : json_to_value host json ≠ .host object := by
  cases json with
  | number n =>
    cases n with
    | int n =>
      rw [json_to_value]
      unfold intOfJson
      split <;> rintro ⟨⟩
    | float x =>
      rw [json_to_value]
      rintro ⟨⟩
  | object map =>
    rw [json_to_value]
    split <;> rintro ⟨⟩
  | _ =>
    rw [json_to_value]
    rintro ⟨⟩

/-! ### Variants and records -/

theorem json_to_value_variant (name : String) (args : List Value) :
    json_to_value host (value_to_json shown (.variant name args)) =
      .variant name (args.map fun v => json_to_value host (value_to_json shown v)) := by
  have hargs : argsOfJson host [("$variant", .string name), ("args", .array (itemsToJson shown args))] =
      some (itemsOfJson host (itemsToJson shown args)) := rfl
  rw [value_to_json, json_to_value, hargs, itemsOfJson_itemsToJson]
  rfl

/-- A record that does not look like a variant, with its fields in order. -/
theorem json_to_value_record {shapeId : Nat}
    (hreadable : ReadableFields host fields) (hvariant : looksLikeVariant fields = false) :
    json_to_value host (value_to_json shown (.record shapeId fields)) =
      .record (host.dynamicShape ((fields.mergeSort Json.keyLe).map Prod.fst))
        ((fields.mergeSort Json.keyLe).map fun field =>
          (field.1, json_to_value host (value_to_json shown field.2))) := by
  rw [value_to_json, json_to_value, fieldsOfJson_fieldsToJson, argsOfJson_fieldsToJson, Json.Value.get,
    lookup_fieldsToJson]
  split
  · rename_i name args hname hargs
    exfalso
    obtain ⟨v, hv, hjson⟩ := map_eq_some_iff.mp hname
    obtain ⟨s, rfl⟩ := str_of_readable (readable_of_lookup hreadable hv) hjson
    split at hargs
    · rename_i items hitems
      obtain ⟨w, hw, hjson⟩ := map_eq_some_iff.mp hitems
      obtain ⟨items, rfl⟩ := list_of_readable (readable_of_lookup hreadable hw) hjson
      unfold looksLikeVariant at hvariant
      rw [hv, hw] at hvariant
      cases hvariant
    · cases hargs
  · dsimp only
    rw [Json.mergeSort_map fun v => json_to_value host (value_to_json shown v), List.map_map]
    rfl

variable {fields' : List (String × Value)}

/-- What is read back as a record is written so. -/
theorem of_json_to_value_record {shapeId shapeId' : Nat}
    (h : json_to_value host (value_to_json shown (.record shapeId fields)) = .record shapeId' fields') :
    looksLikeVariant fields = false ∧ shapeId' = host.dynamicShape (fields'.map Prod.fst) ∧
      fields' = (fields.mergeSort Json.keyLe).map fun field =>
        (field.1, json_to_value host (value_to_json shown field.2)) := by
  rw [value_to_json, json_to_value, fieldsOfJson_fieldsToJson, argsOfJson_fieldsToJson, Json.Value.get,
    lookup_fieldsToJson] at h
  split at h
  · cases h
  · rename_i hnot
    dsimp only at h
    obtain ⟨hshape, hfields⟩ := Value.record.inj h
    rw [Json.mergeSort_map fun v => json_to_value host (value_to_json shown v)] at hfields
    refine ⟨?_, ?_, hfields.symm⟩
    · unfold looksLikeVariant
      split
      · rename_i s items hs hitems
        refine (hnot s (itemsOfJson host (itemsToJson shown items)) ?_ ?_).elim
        · rw [hs, map_some, value_to_json]
        · rw [hitems, map_some, value_to_json]
      · rfl
    · rw [← hshape, ← hfields, Json.mergeSort_map fun v => json_to_value host (value_to_json shown v)]

theorem pairwise_of_mergeSort (hnames : fields'.map Prod.fst = (fields.mergeSort Json.keyLe).map Prod.fst) :
    fields'.Pairwise fun a b => a.1 ≤ b.1 := by
  have hsorted := pairwise_mergeSort Json.keyLe_trans Json.keyLe_total fields
  have hmap : ((fields.mergeSort Json.keyLe).map Prod.fst).Pairwise (· ≤ ·) := by
    rw [pairwise_map]
    exact hsorted.imp of_decide_eq_true
  rw [← hnames, pairwise_map] at hmap
  exact hmap

theorem mergeSort_of_pairwise (h : fields.Pairwise fun a b => a.1 ≤ b.1) : fields.mergeSort Json.keyLe = fields :=
  List.mergeSort_of_pairwise (h.imp fun hle => decide_eq_true hle)

/-! ### What is read back -/

mutual

/-- **A value is read back as it was exactly when it is readable.** -/
theorem readable_iff : ∀ v : Value, json_to_value host (value_to_json shown v) = v ↔ Readable host v
  | .int n => by
    rw [value_to_json, json_to_value]
    exact iff_of_true (intOfJson_toInt n) trivial
  | .float x => by
    show _ ↔ _ ∧ _
    rw [value_to_json]
    rcases jsonFloat_cases x with ⟨f, hf, hbits, hfinite⟩ | ⟨hf, hinfinite⟩
    · rw [hf, json_to_value, hbits, Value.float.injEq]
      exact (and_iff_right hfinite).symm
    · rw [hf, json_to_value]
      exact iff_of_false nofun fun h => hinfinite h.1
  | .bool _ | .str _ | .unit => by
    rw [value_to_json, json_to_value]
    exact iff_of_true rfl trivial
  | .bytes .. | .tuple .. | .stackRecord .. | .stackTuple .. | .arenaRecord .. | .arenaTuple .. | .closure .. | .actor ..
  | .askHandle .. => by
    rw [value_to_json, json_to_value]
    exact iff_of_false nofun id
  | .list items => by
    rw [value_to_json, json_to_value, itemsOfJson_itemsToJson, Value.list.injEq]
    exact readableAll_iff items
  | .record shapeId fields => by
    show _ ↔ ReadableFields host fields ∧ _
    constructor
    · intro h
      obtain ⟨hvariant, hshape, hfields⟩ := of_json_to_value_record h
      have hnames := congrArg (List.map Prod.fst) hfields
      rw [List.map_map] at hnames
      have hpairwise := pairwise_of_mergeSort hnames
      rw [mergeSort_of_pairwise hpairwise] at hfields
      exact ⟨(readableFields_iff fields).mp hfields.symm, hpairwise, hshape, hvariant⟩
    · rintro ⟨hreadable, hpairwise, hshape, hvariant⟩
      rw [json_to_value_record hreadable hvariant, mergeSort_of_pairwise hpairwise,
        (readableFields_iff fields).mpr hreadable, hshape]
  | .variant name args => by
    rw [json_to_value_variant, Value.variant.injEq]
    exact (and_iff_right rfl).trans (readableAll_iff args)
  | .host object => by
    rw [value_to_json]
    exact iff_of_false (json_to_value_ne_host _ object) id

theorem readableAll_iff : ∀ items : List Value,
    (items.map fun v => json_to_value host (value_to_json shown v)) = items ↔ ReadableAll host items
  | [] => iff_of_true rfl trivial
  | v :: items => by
    rw [map_cons, List.cons.injEq]
    exact and_congr (readable_iff v) (readableAll_iff items)

theorem readableFields_iff : ∀ fields : List (String × Value),
    (fields.map fun field => (field.1, json_to_value host (value_to_json shown field.2))) = fields ↔
      ReadableFields host fields
  | [] => iff_of_true rfl trivial
  | (name, v) :: fields => by
    rw [map_cons, List.cons.injEq, Prod.mk.injEq]
    exact and_congr ((and_iff_right rfl).trans (readable_iff v)) (readableFields_iff fields)

end

end ReadBack

end LexLang.Trace
