import Capka.Effects.Stripped
import Capka.Vault.DedupKey

/-!
# Sanitized tool schemas

The schema of a connector's tool is cleaned before a model sees it: `required` loses the names that `properties` does not declare, and
`propertyNames` goes. One recursion walks all of it, so a property map and literal data are treated as schemas are. What comes out is the
schema, cleaned, just when nothing in its property maps and its data looks like what is taken from a schema.
-/

namespace Capka

namespace ToolSchemas

open Ecma
open Effects (assign)

/-! ## The function -/

def requiredKey : Units := ofString "required"

def propertiesKey : Units := ofString "properties"

def propertyNamesKey : Units := ofString "propertyNames"

def protoKey : Units := ofString "__proto__"

/-- The member of the name. -/
def get (key : Units) (fields : List (Units × Json)) : Option Json := (fields.find? fun f => f.1 = key).map Prod.snd

/-- `delete`. -/
def remove (key : Units) (fields : List (Units × Json)) : List (Units × Json) := fields.filter fun f => f.1 ≠ key

/-- `Object.keys` of what is an object. -/
def objectKeys : Json → Option (List Units)
  | .obj fields => some (fields.map Prod.fst)
  | .arr items => some ((List.range items.length).map decimal)
  | _ => none

/-- What a read of the two members finds, in the value or in its prototype. -/
structure Seen where
  required : Option Json
  properties : Option Json

def Seen.nothing : Seen := ⟨none, none⟩

/-- What a read finds in an object of these members and this prototype. -/
def seenIn (own : List (Units × Json)) (proto : Seen) : Seen :=
  ⟨(get requiredKey own).or proto.required, (get propertiesKey own).or proto.properties⟩

/-- `typeof r === "string" && declared.has(r)`. -/
def isDeclared (declared : List Units) : Json → Bool
  | .str s => declared.contains s
  | _ => false

/-- The items of an array. -/
def itemsOf : Json → Option (List Json)
  | .arr items => some items
  | _ => none

/-- `required` loses what `properties` does not declare, and goes when nothing is left of it. -/
def prune (own : List (Units × Json)) (proto : Seen) : List (Units × Json) :=
  match (seenIn own proto).required.bind itemsOf, (seenIn own proto).properties.bind objectKeys with
  | some rs, some declared =>
    if rs.filter (isDeclared declared) = [] then remove requiredKey own else assign requiredKey (.arr (rs.filter (isDeclared declared))) own
  | _, _ => own

/-- An assignment, of a value in which a read finds something. One to `__proto__` sets the prototype. -/
def set (key : Units) (value : Json × Seen) (made : List (Units × Json) × Seen) : List (Units × Json) × Seen :=
  if key = protoKey then (made.1, value.2) else (assign key value.1 made.1, made.2)

mutual

/-- `sanitizeToolSchema`, and what a read finds in its result. -/
def sanitize : Json → Json × Seen
  | .arr items => (.arr (sanitizeItems items), .nothing)
  | .obj fields =>
    (.obj (prune (remove propertyNamesKey (sanitizeFields fields ([], .nothing)).1) (sanitizeFields fields ([], .nothing)).2),
      seenIn (prune (remove propertyNamesKey (sanitizeFields fields ([], .nothing)).1) (sanitizeFields fields ([], .nothing)).2)
        (sanitizeFields fields ([], .nothing)).2)
  | v => (v, .nothing)

def sanitizeItems : List Json → List Json
  | [] => []
  | v :: items => (sanitize v).1 :: sanitizeItems items

/-- The loop over the entries. -/
def sanitizeFields : List (Units × Json) → List (Units × Json) × Seen → List (Units × Json) × Seen
  | [], made => made
  | (k, v) :: fields, made => sanitizeFields fields (set k (sanitize v) made)

end

def sanitizeToolSchema (schema : Json) : Json := (sanitize schema).1

/-! ## Schemas, property maps and data -/

/-- The keywords whose value is a schema, or an array of schemas. -/
def schemaKeywords : List Units :=
  ["items", "prefixItems", "additionalItems", "unevaluatedItems", "contains", "additionalProperties", "unevaluatedProperties", "not", "if",
    "then", "else", "anyOf", "oneOf", "allOf", "contentSchema"].map ofString

/-- The keywords whose value is an object of schemas, each under a name. -/
def mapKeywords : List Units :=
  ["properties", "patternProperties", "$defs", "definitions", "dependentSchemas", "dependencies"].map ofString

mutual

/-- The schema without `propertyNames` and with `required` pruned. What is under any other keyword is data. -/
def cleaned : Json → Json
  | .arr items => .arr (cleanedItems items)
  | .obj fields => .obj (prune (cleanedFields fields) .nothing)
  | v => v

def cleanedItems : List Json → List Json
  | [] => []
  | v :: items => cleaned v :: cleanedItems items

def cleanedFields : List (Units × Json) → List (Units × Json)
  | [] => []
  | (k, v) :: fields =>
    if k = propertyNamesKey then cleanedFields fields
    else (k, if mapKeywords.contains k then cleanedMap v else if schemaKeywords.contains k then cleaned v else v) :: cleanedFields fields

/-- A property map keeps its names. -/
def cleanedMap : Json → Json
  | .obj params => .obj (cleanedParams params)
  | v => v

def cleanedParams : List (Units × Json) → List (Units × Json)
  | [] => []
  | (k, v) :: params => (k, cleaned v) :: cleanedParams params

end

mutual

/-- Every object of a value, at every depth. -/
def AtAll (P : List (Units × Json) → Prop) : Json → Prop
  | .arr items => AtAllItems P items
  | .obj fields => P fields ∧ AtAllFields P fields
  | _ => True

def AtAllItems (P : List (Units × Json) → Prop) : List Json → Prop
  | [] => True
  | v :: items => AtAll P v ∧ AtAllItems P items

def AtAllFields (P : List (Units × Json) → Prop) : List (Units × Json) → Prop
  | [] => True
  | (_, v) :: fields => AtAll P v ∧ AtAllFields P fields

end

mutual

/-- Every object of a schema that is a schema, at every depth. -/
def AtSchemas (P : List (Units × Json) → Prop) : Json → Prop
  | .arr items => AtSchemasItems P items
  | .obj fields => P fields ∧ AtSchemasFields P fields
  | _ => True

def AtSchemasItems (P : List (Units × Json) → Prop) : List Json → Prop
  | [] => True
  | v :: items => AtSchemas P v ∧ AtSchemasItems P items

def AtSchemasFields (P : List (Units × Json) → Prop) : List (Units × Json) → Prop
  | [] => True
  | (k, v) :: fields =>
    (if mapKeywords.contains k then AtSchemasMap P v else if schemaKeywords.contains k then AtSchemas P v else True) ∧ AtSchemasFields P fields

def AtSchemasMap (P : List (Units × Json) → Prop) : Json → Prop
  | .obj params => AtSchemasParams P params
  | _ => True

def AtSchemasParams (P : List (Units × Json) → Prop) : List (Units × Json) → Prop
  | [] => True
  | (_, v) :: params => AtSchemas P v ∧ AtSchemasParams P params

end

/-- `required`, where it is an array beside an object `properties`, has only names of it. -/
def RequiredDeclared (fields : List (Units × Json)) : Prop :=
  ∀ rs declared, (get requiredKey fields).bind itemsOf = some rs → (get propertiesKey fields).bind objectKeys = some declared →
    ∀ r ∈ rs, isDeclared declared r = true

/-- Nothing is taken from an object of these members: none is `propertyNames`, none is lost to the prototype, and `required` has names of
`properties`, and at least one. -/
structure Settled (fields : List (Units × Json)) : Prop where
  named : propertyNamesKey ∉ fields.map Prod.fst
  plain : protoKey ∉ fields.map Prod.fst
  declared : RequiredDeclared fields
  nonempty : ∀ declared, (get requiredKey fields).bind itemsOf = some [] → (get propertiesKey fields).bind objectKeys ≠ some declared

/-- `required` is an array beside an object `properties`. -/
def prunes (fields : List (Units × Json)) : Bool :=
  ((get requiredKey fields).bind itemsOf).isSome && ((get propertiesKey fields).bind objectKeys).isSome

mutual

/-- Nothing in the property maps and in the data of a schema looks like what is taken from a schema: all data is settled, and so is each
property map with its schemas cleaned. No member is lost to the prototype. -/
def Safe : Json → Prop
  | .arr items => SafeItems items
  | .obj fields => SafeFields (prunes fields) fields
  | _ => True

def SafeItems : List Json → Prop
  | [] => True
  | v :: items => Safe v ∧ SafeItems items

def SafeFields (pruned : Bool) : List (Units × Json) → Prop
  | [] => True
  | (k, v) :: fields =>
    (k ≠ protoKey ∧ (k = propertyNamesKey ∨ k = requiredKey ∧ pruned = true ∨
      if mapKeywords.contains k then SafeMap v else if schemaKeywords.contains k then Safe v else AtAll Settled v)) ∧ SafeFields pruned fields

def SafeMap : Json → Prop
  | .obj params => Settled (cleanedParams params) ∧ SafeParams params
  | v => AtAll Settled v

def SafeParams : List (Units × Json) → Prop
  | [] => True
  | (_, v) :: params => Safe v ∧ SafeParams params

end

/-- Only what providers reject is changed: `required` has declared names only and no schema has `propertyNames`, a second time there is
nothing to do, and all parameters and all data are there as they were. -/
structure Sanitizes (schema : Json) : Prop where
  required : AtSchemas RequiredDeclared (sanitizeToolSchema schema)
  propertyNames : AtSchemas (fun fields => propertyNamesKey ∉ fields.map Prod.fst) (sanitizeToolSchema schema)
  idempotent : sanitizeToolSchema (sanitizeToolSchema schema) = sanitizeToolSchema schema
  exact : sanitizeToolSchema schema = cleaned schema

namespace SchemasAux

open Vault (DistinctKeys DistinctKeysItems DistinctKeysFields)
open Effects.StrippedAux (assign_new)

theorem induct {P : Json → Prop} (hnull : P .null) (hbool : ∀ b, P (.bool b)) (hnum : ∀ n, P (.num n)) (hstr : ∀ s, P (.str s))
    (harr : ∀ items, (∀ v ∈ items, P v) → P (.arr items)) (hobj : ∀ fields, (∀ f ∈ fields, P f.2) → P (.obj fields)) (v : Json) : P v := by
  refine @Json.rec P (fun items => ∀ v ∈ items, P v) (fun fields => ∀ f ∈ fields, P f.2) (fun f => P f.2)
    hnull hbool hnum hstr harr hobj ?_ ?_ ?_ ?_ ?_ v
  · exact fun v hv => absurd hv List.not_mem_nil
  · exact fun v items hv hitems w hw => (List.mem_cons.mp hw).elim (fun h => h ▸ hv) (hitems w)
  · exact fun f hf => absurd hf List.not_mem_nil
  · exact fun f fields hf hfields g hg => (List.mem_cons.mp hg).elim (fun h => h ▸ hf) (hfields g)
  · exact fun _ _ hv => hv

/-! ### What the functions on lists are -/

theorem sanitizeItems_eq (items : List Json) : sanitizeItems items = items.map sanitizeToolSchema := by
  induction items with
  | nil => rfl
  | cons v items ih => rw [sanitizeItems, ih, List.map_cons, sanitizeToolSchema]

theorem cleanedItems_eq (items : List Json) : cleanedItems items = items.map cleaned := by
  induction items with
  | nil => rfl
  | cons v items ih => rw [cleanedItems, ih, List.map_cons]

theorem cleanedParams_eq (params : List (Units × Json)) : cleanedParams params = params.map fun f => (f.1, cleaned f.2) := by
  induction params with
  | nil => rfl
  | cons f params ih => rw [cleanedParams, ih, List.map_cons]

/-- What becomes of a member. -/
def cleanedAt (f : Units × Json) : Json :=
  if mapKeywords.contains f.1 then cleanedMap f.2 else if schemaKeywords.contains f.1 then cleaned f.2 else f.2

theorem cleanedFields_eq (fields : List (Units × Json)) :
    cleanedFields fields = (remove propertyNamesKey fields).map fun f => (f.1, cleanedAt f) := by
  induction fields with
  | nil => rfl
  | cons f fields ih =>
    rw [cleanedFields, ih, remove, remove, List.filter_cons]
    split_ifs with h h' h' <;> simp_all [cleanedAt]

variable {P : List (Units × Json) → Prop} {items : List Json}

theorem atAllItems_iff : AtAllItems P items ↔ ∀ v ∈ items, AtAll P v := by
  induction items with
  | nil => simp [AtAllItems]
  | cons v items ih => rw [AtAllItems, ih, List.forall_mem_cons]

variable {fields : List (Units × Json)}

theorem atAllFields_iff :
    AtAllFields P fields ↔ ∀ f ∈ fields, AtAll P f.2 := by
  induction fields with
  | nil => simp [AtAllFields]
  | cons f fields ih => rw [AtAllFields, ih, List.forall_mem_cons]

theorem safeItems_iff : SafeItems items ↔ ∀ v ∈ items, Safe v := by
  induction items with
  | nil => simp [SafeItems]
  | cons v items ih => rw [SafeItems, ih, List.forall_mem_cons]

theorem safeParams_iff {params : List (Units × Json)} : SafeParams params ↔ ∀ f ∈ params, Safe f.2 := by
  induction params with
  | nil => simp [SafeParams]
  | cons f params ih => rw [SafeParams, ih, List.forall_mem_cons]

/-- What is asked of a member. -/
def SafeAt (f : Units × Json) : Prop :=
  if mapKeywords.contains f.1 then SafeMap f.2 else if schemaKeywords.contains f.1 then Safe f.2 else AtAll Settled f.2

theorem safeFields_iff {pruned : Bool} : SafeFields pruned fields ↔
    ∀ f ∈ fields, f.1 ≠ protoKey ∧ (f.1 = propertyNamesKey ∨ f.1 = requiredKey ∧ pruned = true ∨ SafeAt f) := by
  induction fields with
  | nil => simp [SafeFields]
  | cons f fields ih =>
    rw [SafeFields, ih, List.forall_mem_cons]
    rfl

theorem distinctKeysItems_iff : DistinctKeysItems items ↔ ∀ v ∈ items, DistinctKeys v := by
  induction items with
  | nil => simp [DistinctKeysItems]
  | cons v items ih => rw [DistinctKeysItems, ih, List.forall_mem_cons]

theorem distinctKeysFields_iff : DistinctKeysFields fields ↔ ∀ f ∈ fields, DistinctKeys f.2 := by
  induction fields with
  | nil => simp [DistinctKeysFields]
  | cons f fields ih => rw [DistinctKeysFields, ih, List.forall_mem_cons]

/-! ### Members -/

section Members

variable {key : Units} {fields : List (Units × Json)}

theorem get_eq_none_iff : get key fields = none ↔ key ∉ fields.map Prod.fst := by
  rw [get, Option.map_eq_none_iff, List.find?_eq_none]
  simp only [decide_eq_true_eq, List.mem_map, not_exists, not_and]

theorem get_of_mem (hnodup : (fields.map Prod.fst).Nodup) {f : Units × Json} (hf : f ∈ fields) : get f.1 fields = some f.2 := by
  induction fields with
  | nil => cases hf
  | cons g fields ih =>
    rw [List.map_cons, List.nodup_cons] at hnodup
    rcases List.mem_cons.mp hf with rfl | hf
    · simp [get]
    · have hne : g.1 ≠ f.1 := fun h => hnodup.1 (h ▸ List.mem_map_of_mem hf)
      rw [get, List.find?_cons_of_neg (by simpa using hne)]
      exact ih hnodup.2 hf

theorem mem_of_get {v : Json} (h : get key fields = some v) : (key, v) ∈ fields := by
  obtain ⟨f, hf, rfl⟩ := Option.map_eq_some_iff.mp h
  have hkey : f.1 = key := by simpa using List.find?_some hf
  exact hkey ▸ List.mem_of_find?_eq_some hf

theorem get_remove_self (key : Units) (fields : List (Units × Json)) : get key (remove key fields) = none := by
  rw [get_eq_none_iff, remove]
  simp

theorem get_remove_ne {key' : Units} (h : key ≠ key') (fields : List (Units × Json)) : get key (remove key' fields) = get key fields := by
  rw [get, get, remove, List.find?_filter]
  congr 2
  funext f
  by_cases hf : f.1 = key
  · simp [hf, h]
  · simp [hf]

theorem find?_write (key key' : Units) (value : Json) (fields : List (Units × Json)) :
    (fields.map fun f => if f.1 = key' then (key', value) else f).find? (fun f => f.1 = key) =
      (fields.find? fun f => f.1 = key).map fun f => if f.1 = key' then (key', value) else f := by
  rw [List.find?_map]
  congr 2
  funext f
  simp only [Function.comp_apply]
  split_ifs with hf
  · rw [hf]
  · rfl

variable {value : Json}

theorem get_assign_self (hproto : key ≠ protoKey) : get key (assign key value fields) = some value := by
  have hne : ¬key = ofString "__proto__" := hproto
  rw [assign, if_neg hne]
  split_ifs with hmem
  · rw [get, find?_write]
    cases hfind : fields.find? fun f => f.1 = key with
    | none => exact absurd hmem (get_eq_none_iff.mp (by rw [get, hfind]; rfl))
    | some f =>
      have hkey : f.1 = key := by simpa using List.find?_some hfind
      simp [hkey]
  · have hnone : fields.find? (fun f => f.1 = key) = none := Option.map_eq_none_iff.mp (get_eq_none_iff.mpr hmem)
    rw [get, List.find?_append, hnone]
    simp

theorem get_assign_ne {key' : Units} (h : key ≠ key') : get key (assign key' value fields) = get key fields := by
  unfold assign
  split_ifs
  · rfl
  · rw [get, find?_write, get]
    cases hfind : fields.find? fun f => f.1 = key with
    | none => rfl
    | some f =>
      have hkey : f.1 = key := by simpa using List.find?_some hfind
      simp [hkey, h]
  · have hne : ¬key' = key := fun h' => h h'.symm
    simp [get, List.find?_append, hne]

theorem remove_map (key : Units) (g : Units × Json → Json) (fields : List (Units × Json)) :
    remove key (fields.map fun f => (f.1, g f)) = (remove key fields).map fun f => (f.1, g f) := by
  rw [remove, remove, List.filter_map]
  rfl

theorem nodup_remove (key : Units) (h : (fields.map Prod.fst).Nodup) : ((remove key fields).map Prod.fst).Nodup :=
  h.sublist (List.filter_sublist.map _)

theorem keys_map (g : Units × Json → Json) (fields : List (Units × Json)) :
    (fields.map fun f => (f.1, g f)).map Prod.fst = fields.map Prod.fst := by
  rw [List.map_map]
  rfl

theorem get_map (g : Units × Json → Json) : get key (fields.map fun f => (f.1, g f)) = (fields.find? fun f => f.1 = key).map g := by
  rw [get, List.find?_map, Option.map_map]
  rfl

theorem keys_assign (h : key ∈ fields.map Prod.fst) : (assign key value fields).map Prod.fst = fields.map Prod.fst := by
  unfold assign
  split_ifs
  · rfl
  · rw [List.map_map]
    refine List.map_congr_left fun f _ => ?_
    simp only [Function.comp_apply]
    split_ifs with hf
    · exact hf.symm
    · rfl

theorem nodup_assign (h : (fields.map Prod.fst).Nodup) : ((assign key value fields).map Prod.fst).Nodup := by
  by_cases hmem : key ∈ fields.map Prod.fst
  · rwa [keys_assign hmem]
  · unfold assign
    split_ifs
    · exact h
    · rw [List.map_append, List.nodup_append]
      refine ⟨h, by simp, fun a ha b hb => ?_⟩
      obtain rfl : b = key := by simpa using hb
      rintro rfl
      exact hmem ha

theorem mem_assign {f : Units × Json} (h : f ∈ assign key value fields) : f ∈ fields ∨ f = (key, value) := by
  unfold assign at h
  split_ifs at h
  · exact .inl h
  · obtain ⟨g, hg, rfl⟩ := List.mem_map.mp h
    split_ifs
    · exact .inr rfl
    · exact .inl hg
  · rcases List.mem_append.mp h with h | h
    · exact .inl h
    · exact .inr (by simpa using h)

end Members

/-! ### Pruning -/

section Pruning

variable {own : List (Units × Json)} {proto : Seen}

theorem required_ne_proto : requiredKey ≠ protoKey := by decide +kernel

theorem properties_ne_required : propertiesKey ≠ requiredKey := by decide +kernel

theorem propertyNames_ne_required : propertyNamesKey ≠ requiredKey := by decide +kernel

theorem prune_of_some {rs : List Json} {declared : List Units} (hr : (seenIn own proto).required.bind itemsOf = some rs)
    (hd : (seenIn own proto).properties.bind objectKeys = some declared) :
    prune own proto = if rs.filter (isDeclared declared) = [] then remove requiredKey own
      else assign requiredKey (.arr (rs.filter (isDeclared declared))) own := by
  rw [prune, hr, hd]

theorem prune_of_none (h : ∀ rs declared, (seenIn own proto).required.bind itemsOf = some rs →
    (seenIn own proto).properties.bind objectKeys ≠ some declared) : prune own proto = own := by
  unfold prune
  split
  · rename_i rs declared hr hd
    exact absurd hd (h rs declared hr)
  · rfl

theorem prune_cases (own : List (Units × Json)) (proto : Seen) :
    (prune own proto = own ∧ ∀ rs declared, (seenIn own proto).required.bind itemsOf = some rs →
      (seenIn own proto).properties.bind objectKeys ≠ some declared) ∨
    ∃ (rs : List Json) (declared : List Units), (seenIn own proto).properties.bind objectKeys = some declared ∧
      (prune own proto = remove requiredKey own ∨
        rs.filter (isDeclared declared) ≠ [] ∧ prune own proto = assign requiredKey (.arr (rs.filter (isDeclared declared))) own) := by
  by_cases h : ∀ rs declared, (seenIn own proto).required.bind itemsOf = some rs → (seenIn own proto).properties.bind objectKeys ≠ some declared
  · exact .inl ⟨prune_of_none h, h⟩
  · simp only [not_forall, not_not] at h
    obtain ⟨rs, declared, hr, hd⟩ := h
    refine .inr ⟨rs, declared, hd, ?_⟩
    rw [prune_of_some hr hd]
    split_ifs with hempty
    · exact .inl rfl
    · exact .inr ⟨hempty, rfl⟩

theorem get_prune_ne {key : Units} (h : key ≠ requiredKey) : get key (prune own proto) = get key own := by
  rcases prune_cases own proto with ⟨heq, _⟩ | ⟨rs, declared, _, heq | ⟨_, heq⟩⟩ <;> rw [heq]
  · exact get_remove_ne h own
  · exact get_assign_ne h

theorem nodup_prune (h : (own.map Prod.fst).Nodup) : ((prune own proto).map Prod.fst).Nodup := by
  rcases prune_cases own proto with ⟨heq, _⟩ | ⟨rs, declared, _, heq | ⟨_, heq⟩⟩ <;> rw [heq]
  · exact h
  · exact nodup_remove _ h
  · exact nodup_assign h

theorem mem_prune {f : Units × Json} (h : f ∈ prune own proto) :
    f ∈ own ∨ ∃ (rs : List Json) (declared : List Units), f.2 = .arr (rs.filter (isDeclared declared)) := by
  rcases prune_cases own proto with ⟨heq, _⟩ | ⟨rs, declared, _, heq | ⟨_, heq⟩⟩ <;> rw [heq] at h
  · exact .inl h
  · exact .inl (List.mem_of_mem_filter h)
  · rcases mem_assign h with h | rfl
    · exact .inl h
    · exact .inr ⟨rs, declared, rfl⟩

theorem settled_prune (hnamed : propertyNamesKey ∉ own.map Prod.fst) (hplain : protoKey ∉ own.map Prod.fst) : Settled (prune own proto) := by
  have hkey : ∀ {key : Units}, key ≠ requiredKey → key ∉ own.map Prod.fst → key ∉ (prune own proto).map Prod.fst := by
    intro key hne hkey
    rw [← get_eq_none_iff] at hkey ⊢
    rw [get_prune_ne hne, hkey]
  have hseen : ∀ declared, (get propertiesKey own).bind objectKeys = some declared →
      (seenIn own proto).properties.bind objectKeys = some declared := by
    intro declared hd
    obtain ⟨v, hv, hkeys⟩ := Option.bind_eq_some_iff.mp hd
    rw [seenIn, hv]
    exact hkeys
  have hread : ∀ {rs declared}, (get requiredKey (prune own proto)).bind itemsOf = some rs →
      (get propertiesKey (prune own proto)).bind objectKeys = some declared → rs ≠ [] ∧ ∀ r ∈ rs, isDeclared declared r = true := by
    intro rs declared hr hd
    rw [get_prune_ne properties_ne_required] at hd
    have hd' := hseen declared hd
    rcases prune_cases own proto with ⟨heq, hnone⟩ | ⟨rs', declared', hsome, heq | ⟨hne, heq⟩⟩ <;> rw [heq] at hr
    · obtain ⟨v, hv, hitems⟩ := Option.bind_eq_some_iff.mp hr
      refine absurd hd' (hnone rs declared ?_)
      rw [seenIn, hv]
      exact hitems
    · rw [get_remove_self] at hr
      cases hr
    · rw [get_assign_self required_ne_proto] at hr
      obtain rfl : rs'.filter (isDeclared declared') = rs := by simpa [itemsOf] using hr
      obtain rfl : declared' = declared := Option.some.inj (hsome.symm.trans hd')
      exact ⟨hne, fun r hr => (List.mem_filter.mp hr).2⟩
  refine ⟨hkey propertyNames_ne_required hnamed, hkey required_ne_proto.symm hplain, fun rs declared hr hd => (hread hr hd).2, ?_⟩
  exact fun declared hr hd => (hread hr hd).1 rfl

theorem assign_self {key : Units} {value : Json} {fields : List (Units × Json)} (hnodup : (fields.map Prod.fst).Nodup)
    (h : get key fields = some value) : assign key value fields = fields := by
  have hmem := mem_of_get h
  unfold assign
  split_ifs with hproto hkey
  · rfl
  · refine (List.map_congr_left fun f hf => ?_).trans (List.map_id _)
    split_ifs with hf'
    · have hget := get_of_mem hnodup hf
      rw [hf', h] at hget
      exact Prod.ext hf'.symm (Option.some.inj hget)
    · rfl
  · exact absurd (List.mem_map_of_mem (f := Prod.fst) hmem) hkey

theorem prune_of_settled (hnodup : (own.map Prod.fst).Nodup) (h : Settled own) : prune own .nothing = own := by
  have hseen : seenIn own .nothing = ⟨get requiredKey own, get propertiesKey own⟩ := by simp [seenIn, Seen.nothing]
  by_cases hnone : ∀ rs declared, (seenIn own .nothing).required.bind itemsOf = some rs →
      (seenIn own .nothing).properties.bind objectKeys ≠ some declared
  · exact prune_of_none hnone
  · simp only [not_forall, not_not] at hnone
    obtain ⟨rs, declared, hr, hd⟩ := hnone
    rw [prune_of_some hr hd]
    rw [hseen] at hr hd
    have hall : rs.filter (isDeclared declared) = rs := List.filter_eq_self.mpr (h.declared rs declared hr hd)
    have hne : rs ≠ [] := by
      rintro rfl
      exact h.nonempty declared hr hd
    rw [hall, if_neg hne]
    obtain ⟨v, hv, hitems⟩ := Option.bind_eq_some_iff.mp hr
    cases v <;> simp only [itemsOf, Option.some.injEq, reduceCtorEq] at hitems
    rw [hitems] at hv
    exact assign_self hnodup hv

end Pruning

/-! ### The recursion -/

/-- What comes through the loop, without `propertyNames`. -/
def swept (fields : List (Units × Json)) : List (Units × Json) :=
  (remove propertyNamesKey (remove protoKey fields)).map fun f => (f.1, sanitizeToolSchema f.2)

theorem sanitizeFields_own {own : List (Units × Json)} {proto : Seen} (hnodup : (fields.map Prod.fst).Nodup)
    (hnew : ∀ k ∈ fields.map Prod.fst, k ∉ own.map Prod.fst) :
    (sanitizeFields fields (own, proto)).1 = own ++ (remove protoKey fields).map fun f => (f.1, sanitizeToolSchema f.2) := by
  induction fields generalizing own proto with
  | nil => simp [sanitizeFields, remove]
  | cons f fields ih =>
    obtain ⟨k, v⟩ := f
    rw [List.map_cons, List.nodup_cons] at hnodup
    obtain ⟨hfirst, hrest⟩ := hnodup
    rw [sanitizeFields, set]
    by_cases hproto : k = protoKey
    · rw [if_pos hproto, ih hrest fun k' hk' => hnew k' (List.mem_cons_of_mem _ hk')]
      simp [remove, hproto]
    · rw [if_neg hproto, assign_new _ hproto (hnew k (by simp)), ih hrest]
      · simp [remove, hproto, sanitizeToolSchema]
      · intro k' hk' hmem
        rw [List.map_append, List.mem_append] at hmem
        rcases hmem with hmem | hmem
        · exact hnew k' (List.mem_cons_of_mem _ hk') hmem
        · have heq : k' = k := by simpa using hmem
          exact hfirst (heq ▸ hk')

theorem sanitizeFields_proto (h : protoKey ∉ fields.map Prod.fst) (made : List (Units × Json) × Seen) :
    (sanitizeFields fields made).2 = made.2 := by
  induction fields generalizing made with
  | nil => rfl
  | cons f fields ih =>
    rw [List.map_cons, List.mem_cons, not_or] at h
    rw [sanitizeFields, ih h.2, set, if_neg (fun heq => h.1 heq.symm)]

theorem sanitize_arr (items : List Json) : sanitizeToolSchema (.arr items) = .arr (items.map sanitizeToolSchema) := by
  rw [sanitizeToolSchema, sanitize, sanitizeItems_eq]

/-- What the prototype of the result shows. -/
def protoOf (fields : List (Units × Json)) : Seen := (sanitizeFields fields ([], .nothing)).2

theorem sanitize_obj (hnodup : (fields.map Prod.fst).Nodup) :
    sanitizeToolSchema (.obj fields) = .obj (prune (swept fields) (protoOf fields)) := by
  rw [sanitizeToolSchema, sanitize, sanitizeFields_own hnodup (by simp), List.nil_append, remove_map]
  rfl

theorem protoOf_eq (h : protoKey ∉ fields.map Prod.fst) : protoOf fields = .nothing :=
  sanitizeFields_proto h _

theorem keys_swept (fields : List (Units × Json)) :
    (swept fields).map Prod.fst = (remove propertyNamesKey (remove protoKey fields)).map Prod.fst := keys_map _ _

theorem nodup_swept (h : (fields.map Prod.fst).Nodup) : ((swept fields).map Prod.fst).Nodup := by
  rw [keys_swept]
  exact nodup_remove _ (nodup_remove _ h)

theorem remove_eq_self {key : Units} (h : key ∉ fields.map Prod.fst) : remove key fields = fields := by
  refine List.filter_eq_self.mpr fun f hf => ?_
  have hne : f.1 ≠ key := fun heq => h (heq ▸ List.mem_map_of_mem hf)
  simpa using hne

theorem settled_swept (fields : List (Units × Json)) (proto : Seen) : Settled (prune (swept fields) proto) := by
  refine settled_prune ?_ ?_ <;> rw [keys_swept]
  · simp [remove]
  · simp [remove]

theorem sanitize_settled (v : Json) (hv : DistinctKeys v) :
    AtAll Settled (sanitizeToolSchema v) ∧ DistinctKeys (sanitizeToolSchema v) := by
  induction v using induct with
  | hnull | hbool | hnum | hstr => exact ⟨trivial, trivial⟩
  | harr items ih =>
    rw [DistinctKeys, distinctKeysItems_iff] at hv
    rw [sanitize_arr, AtAll, DistinctKeys, atAllItems_iff, distinctKeysItems_iff]
    simp only [List.forall_mem_map]
    exact ⟨fun v hmem => (ih v hmem (hv v hmem)).1, fun v hmem => (ih v hmem (hv v hmem)).2⟩
  | hobj fields ih =>
    rw [DistinctKeys, distinctKeysFields_iff] at hv
    have hmember : ∀ f ∈ prune (swept fields) (protoOf fields), AtAll Settled f.2 ∧ DistinctKeys f.2 := by
      intro f hf
      rcases mem_prune hf with hf | ⟨rs, declared, hvalue⟩
      · obtain ⟨g, hg, rfl⟩ := List.mem_map.mp hf
        have hmem := List.mem_of_mem_filter (List.mem_of_mem_filter hg)
        exact ih g hmem (hv.2 g hmem)
      · have hstring : ∀ r ∈ rs.filter (isDeclared declared), AtAll Settled r ∧ DistinctKeys r := by
          intro r hr
          have hdeclared := (List.mem_filter.mp hr).2
          cases r <;> first | exact ⟨trivial, trivial⟩ | cases hdeclared
        rw [hvalue, AtAll, DistinctKeys, atAllItems_iff, distinctKeysItems_iff]
        exact ⟨fun r hr => (hstring r hr).1, fun r hr => (hstring r hr).2⟩
    rw [sanitize_obj hv.1, AtAll, DistinctKeys, atAllFields_iff, distinctKeysFields_iff]
    exact ⟨⟨settled_swept _ _, fun f hf => (hmember f hf).1⟩, nodup_prune (nodup_swept hv.1), fun f hf => (hmember f hf).2⟩

theorem sanitize_of_settled (v : Json) (hv : DistinctKeys v) (h : AtAll Settled v) : sanitizeToolSchema v = v := by
  induction v using induct with
  | hnull => rfl
  | hbool => rfl
  | hnum => rfl
  | hstr => rfl
  | harr items ih =>
    rw [DistinctKeys, distinctKeysItems_iff] at hv
    rw [AtAll, atAllItems_iff] at h
    rw [sanitize_arr, List.map_congr_left fun v hmem => ih v hmem (hv v hmem) (h v hmem), List.map_id']
  | hobj fields ih =>
    rw [DistinctKeys, distinctKeysFields_iff] at hv
    rw [AtAll, atAllFields_iff] at h
    have hswept : swept fields = fields := by
      rw [swept, remove_eq_self h.1.plain, remove_eq_self h.1.named,
        List.map_congr_left fun f hmem => by rw [ih f hmem (hv.2 f hmem) (h.2 f hmem)], List.map_id']
    rw [sanitize_obj hv.1, hswept, protoOf_eq h.1.plain, prune_of_settled hv.1 h.1]

variable {v : Json}

theorem sanitize_eq_self_iff (hv : DistinctKeys v) : sanitizeToolSchema v = v ↔ AtAll Settled v := by
  constructor
  · intro h
    rw [← h]
    exact (sanitize_settled v hv).1
  · exact sanitize_of_settled v hv

theorem sanitize_idempotent (hv : DistinctKeys v) : sanitizeToolSchema (sanitizeToolSchema v) = sanitizeToolSchema v :=
  sanitize_of_settled _ (sanitize_settled v hv).2 (sanitize_settled v hv).1

theorem atSchemas_of_atAll {Q : List (Units × Json) → Prop} (hPQ : ∀ fields, P fields → Q fields) (v : Json) :
    AtAll P v → AtSchemas Q v ∧ AtSchemasMap Q v := by
  induction v using induct with
  | hnull | hbool | hnum | hstr => exact fun _ => ⟨trivial, trivial⟩
  | harr items ih =>
    intro h
    rw [AtAll, atAllItems_iff] at h
    refine ⟨?_, trivial⟩
    rw [AtSchemas]
    induction items with
    | nil => trivial
    | cons v items ihs =>
      exact ⟨(ih v List.mem_cons_self (h v List.mem_cons_self)).1,
        ihs (fun w hw => ih w (List.mem_cons_of_mem _ hw)) fun w hw => h w (List.mem_cons_of_mem _ hw)⟩
  | hobj fields ih =>
    intro h
    rw [AtAll, atAllFields_iff] at h
    obtain ⟨hP, hall⟩ := h
    rw [AtSchemas, AtSchemasMap]
    have hboth : AtSchemasFields Q fields ∧ AtSchemasParams Q fields := by
      clear hP
      induction fields with
      | nil => exact ⟨trivial, trivial⟩
      | cons f fields ihs =>
        have hf := ih f List.mem_cons_self (hall f List.mem_cons_self)
        have hrest := ihs (fun g hg => ih g (List.mem_cons_of_mem _ hg)) fun g hg => hall g (List.mem_cons_of_mem _ hg)
        rw [AtSchemasFields, AtSchemasParams]
        refine ⟨⟨?_, hrest.1⟩, hf.1, hrest.2⟩
        split_ifs
        · exact hf.2
        · exact hf.1
    exact ⟨⟨hPQ fields hP, hboth.1⟩, hboth.2⟩

/-! ### What is kept -/

/-- The function leaves the kind of a value, and the strings. -/
structure Mild (g : Json → Json) : Prop where
  str : ∀ s, g (.str s) = .str s
  other : ∀ v declared, (∀ s, v ≠ .str s) → isDeclared declared (g v) = false

theorem filter_mild {g : Json → Json} (hg : Mild g) (declared : List Units) (rs : List Json) :
    (rs.map g).filter (isDeclared declared) = rs.filter (isDeclared declared) := by
  induction rs with
  | nil => rfl
  | cons r rs ih =>
    rw [List.map_cons, List.filter_cons, List.filter_cons, ih]
    cases r
    case str s => rw [hg.str]
    all_goals rw [hg.other _ _ (by simp)]; rfl

theorem sanitize_kind (v : Json) : itemsOf (sanitizeToolSchema v) = (itemsOf v).map (List.map sanitizeToolSchema) ∧
    (objectKeys (sanitizeToolSchema v)).isSome = (objectKeys v).isSome := by
  cases v with
  | arr items =>
    rw [sanitize_arr]
    exact ⟨rfl, rfl⟩
  | _ => exact ⟨rfl, rfl⟩

theorem sanitize_mild : Mild sanitizeToolSchema where
  str _ := rfl
  other v declared h := by
    cases v with
    | str s => exact absurd rfl (h s)
    | _ => rfl

theorem cleaned_kind (v : Json) : itemsOf (cleaned v) = (itemsOf v).map (List.map cleaned) ∧
    (objectKeys (cleaned v)).isSome = (objectKeys v).isSome := by
  cases v with
  | arr items =>
    rw [cleaned, cleanedItems_eq]
    exact ⟨rfl, rfl⟩
  | _ => exact ⟨rfl, rfl⟩

theorem cleanedMap_kind (v : Json) : (objectKeys (cleanedMap v)).isSome = (objectKeys v).isSome := by
  cases v <;> rfl

variable {f : Units × Json}

theorem cleanedAt_required (h : f.1 = requiredKey) : cleanedAt f = f.2 := by
  rw [cleanedAt, h, if_neg (by decide +kernel), if_neg (by decide +kernel)]

theorem cleanedAt_properties (h : f.1 = propertiesKey) : cleanedAt f = cleanedMap f.2 := by
  rw [cleanedAt, h, if_pos (by decide +kernel)]

/-- A function of members that leaves what is read of them: what `required` lists that is declared, and whether there are properties. -/
structure Reading (fields : List (Units × Json)) (a : Units × Json → Json) : Prop where
  required : ∀ f ∈ fields, f.1 = requiredKey → ∀ declared,
    (itemsOf (a f)).map (List.filter (isDeclared declared)) = (itemsOf f.2).map (List.filter (isDeclared declared))
  properties : ∀ f ∈ fields, f.1 = propertiesKey → (objectKeys (a f)).isSome = (objectKeys f.2).isSome

theorem seenIn_nothing (own : List (Units × Json)) : seenIn own .nothing = ⟨get requiredKey own, get propertiesKey own⟩ := by
  simp [seenIn, Seen.nothing]

variable {a : Units × Json → Json}

theorem prune_map_of_not_prunes (ha : Reading fields a)
    (hprunes : prunes fields = false) : prune (fields.map fun f => (f.1, a f)) .nothing = fields.map fun f => (f.1, a f) := by
  refine prune_of_none fun rs declared hr hd => ?_
  rw [seenIn_nothing] at hr hd
  simp only [get_map, Option.bind_map] at hr hd
  obtain ⟨f, hf, hitems⟩ := Option.bind_eq_some_iff.mp hr
  obtain ⟨g, hg, hkeys⟩ := Option.bind_eq_some_iff.mp hd
  have hf' : f.1 = requiredKey := by simpa using List.find?_some hf
  have hg' : g.1 = propertiesKey := by simpa using List.find?_some hg
  have hitems' := ha.required f (List.mem_of_find?_eq_some hf) hf' []
  have hkeys' := ha.properties g (List.mem_of_find?_eq_some hg) hg'
  have h₁ : (itemsOf f.2).isSome = true := by
    rw [Function.comp_apply] at hitems
    rw [hitems] at hitems'
    rw [← Option.isSome_map (f := List.filter (isDeclared [])), ← hitems']
    rfl
  have h₂ : (objectKeys g.2).isSome = true := by
    rw [Function.comp_apply] at hkeys
    rw [← hkeys', hkeys]
    rfl
  have htrue : prunes fields = true := by
    rw [prunes, get, get, hf, hg]
    simp [h₁, h₂]
  rw [hprunes] at htrue
  cases htrue

theorem get_map_of_mem (hnodup : (fields.map Prod.fst).Nodup) (a : Units × Json → Json)
    (hf : f ∈ fields) : get f.1 (fields.map fun f => (f.1, a f)) = some (a f) := by
  refine get_of_mem (f := (f.1, a f)) ?_ (List.mem_map_of_mem hf)
  rwa [keys_map]

theorem prune_map_of_prunes (hnodup : (fields.map Prod.fst).Nodup)
    (ha : Reading fields a) {w : Json} {rs : List Json} {names : List Units} (hv : get requiredKey fields = some v)
    (hitems : itemsOf v = some rs) (hw : get propertiesKey fields = some w) (hnames : objectKeys (a (propertiesKey, w)) = some names) :
    prune (fields.map fun f => (f.1, a f)) .nothing =
      if rs.filter (isDeclared names) = [] then remove requiredKey (fields.map fun f => (f.1, a f))
      else assign requiredKey (.arr (rs.filter (isDeclared names))) (fields.map fun f => (f.1, a f)) := by
  have hmap := ha.required _ (mem_of_get hv) rfl names
  rw [hitems] at hmap
  obtain ⟨rs', hrs', hfilter⟩ := Option.map_eq_some_iff.mp hmap
  have hr : (seenIn (fields.map fun f => (f.1, a f)) .nothing).required.bind itemsOf = some rs' := by
    have hread := get_map_of_mem hnodup a (mem_of_get hv)
    rw [seenIn_nothing, hread]
    exact hrs'
  have hd : (seenIn (fields.map fun f => (f.1, a f)) .nothing).properties.bind objectKeys = some names := by
    have hread := get_map_of_mem hnodup a (mem_of_get hw)
    rw [seenIn_nothing, hread]
    exact hnames
  rw [prune_of_some hr hd, hfilter]

theorem prune_map_congr {b : Units × Json → Json} (hnodup : (fields.map Prod.fst).Nodup)
    (ha : Reading fields a) (hb : Reading fields b) (hprunes : prunes fields = true)
    (hagree : ∀ f ∈ fields, f.1 ≠ requiredKey → a f = b f) :
    prune (fields.map fun f => (f.1, a f)) .nothing = prune (fields.map fun f => (f.1, b f)) .nothing := by
  rw [prunes, Bool.and_eq_true, Option.isSome_iff_exists, Option.isSome_iff_exists] at hprunes
  obtain ⟨⟨rs, hr⟩, declared, hd⟩ := hprunes
  obtain ⟨v, hv, hitems⟩ := Option.bind_eq_some_iff.mp hr
  obtain ⟨w, hw, hkeys⟩ := Option.bind_eq_some_iff.mp hd
  obtain ⟨names, hnames⟩ := Option.isSome_iff_exists.mp ((ha.properties _ (mem_of_get hw) rfl).trans (by rw [hkeys]; rfl))
  have hsame : a (propertiesKey, w) = b (propertiesKey, w) := hagree _ (mem_of_get hw) properties_ne_required
  rw [prune_map_of_prunes hnodup ha hv hitems hw hnames, prune_map_of_prunes hnodup hb hv hitems hw (hsame ▸ hnames)]
  split_ifs
  · rw [remove_map, remove_map]
    refine List.map_congr_left fun f hf => ?_
    rw [hagree f (List.mem_of_mem_filter hf) (by simpa using (List.mem_filter.mp hf).2)]
  · have hne : ¬requiredKey = ofString "__proto__" := required_ne_proto
    have hmem : requiredKey ∈ fields.map Prod.fst := List.mem_map_of_mem (f := Prod.fst) (mem_of_get hv)
    rw [assign, assign, if_neg hne, if_neg hne, keys_map, keys_map, if_pos hmem, if_pos hmem, List.map_map, List.map_map]
    refine List.map_congr_left fun f hf => ?_
    simp only [Function.comp_apply]
    split_ifs with hkey
    · rfl
    · rw [hagree f hf hkey]

theorem prune_map_eq_iff {b : Units × Json → Json} (hnodup : (fields.map Prod.fst).Nodup)
    (ha : Reading fields a) (hb : Reading fields b) :
    prune (fields.map fun f => (f.1, a f)) .nothing = prune (fields.map fun f => (f.1, b f)) .nothing ↔
      ∀ f ∈ fields, f.1 = requiredKey ∧ prunes fields = true ∨ a f = b f := by
  constructor
  · intro heq f hf
    by_cases hkey : f.1 = requiredKey
    · by_cases hprunes : prunes fields = true
      · exact .inl ⟨hkey, hprunes⟩
      · rw [Bool.not_eq_true] at hprunes
        rw [prune_map_of_not_prunes ha hprunes, prune_map_of_not_prunes hb hprunes] at heq
        have h := congrArg (get f.1) heq
        rw [get_map_of_mem hnodup a hf, get_map_of_mem hnodup b hf] at h
        exact .inr (Option.some.inj h)
    · have h := congrArg (get f.1) heq
      rw [get_prune_ne hkey, get_prune_ne hkey, get_map_of_mem hnodup a hf, get_map_of_mem hnodup b hf] at h
      exact .inr (Option.some.inj h)
  · intro h
    by_cases hprunes : prunes fields = true
    · exact prune_map_congr hnodup ha hb hprunes fun f hf hne => (h f hf).resolve_left fun hcon => hne hcon.1
    · refine congrArg (fun l => prune l .nothing) (List.map_congr_left fun f hf => ?_)
      rw [(h f hf).resolve_left fun hcon => hprunes hcon.2]

theorem reading_sanitize (fields : List (Units × Json)) : Reading fields fun f => sanitizeToolSchema f.2 where
  required f _ _ declared := by
    rw [(sanitize_kind f.2).1, Option.map_map]
    congr 1
    funext rs
    exact filter_mild sanitize_mild declared rs
  properties f _ _ := (sanitize_kind f.2).2

theorem reading_cleaned (fields : List (Units × Json)) : Reading fields cleanedAt where
  required f _ hkey declared := by rw [cleanedAt_required hkey]
  properties f _ hkey := by rw [cleanedAt_properties hkey, cleanedMap_kind]

theorem keys_cleanedParams (params : List (Units × Json)) : (cleanedParams params).map Prod.fst = params.map Prod.fst := by
  rw [cleanedParams_eq, keys_map]

theorem swept_eq_map (hplain : protoKey ∉ fields.map Prod.fst) :
    swept fields = (remove propertyNamesKey fields).map fun f => (f.1, sanitizeToolSchema f.2) := by
  rw [swept, remove_eq_self hplain]

theorem prunes_remove (fields : List (Units × Json)) : prunes (remove propertyNamesKey fields) = prunes fields := by
  have hproperties : propertiesKey ≠ propertyNamesKey := by decide +kernel
  rw [prunes, prunes, get_remove_ne propertyNames_ne_required.symm, get_remove_ne hproperties]

theorem sanitize_obj_iff (hnodup : (fields.map Prod.fst).Nodup)
    (h : ∀ f ∈ fields, sanitizeToolSchema f.2 = cleanedAt f ↔ SafeAt f) :
    sanitizeToolSchema (.obj fields) = cleaned (.obj fields) ↔ Safe (.obj fields) := by
  rw [sanitize_obj hnodup, cleaned, Json.obj.injEq, cleanedFields_eq, Safe, safeFields_iff]
  by_cases hplain : protoKey ∈ fields.map Prod.fst
  · -- The member is lost.
    obtain ⟨f, hf, hkey⟩ := List.mem_map.mp hplain
    refine iff_of_false (fun heq => ?_) fun hsafe => (hsafe f hf).1 hkey
    have hget := congrArg (get protoKey) heq
    have hne : protoKey ≠ propertyNamesKey := by decide +kernel
    rw [get_eq_none_iff.mpr (settled_swept fields (protoOf fields)).plain, get_prune_ne required_ne_proto.symm, eq_comm, get_eq_none_iff,
      keys_map] at hget
    refine hget (List.mem_map.mpr ⟨f, List.mem_filter.mpr ⟨hf, ?_⟩, hkey⟩)
    simpa [hkey] using hne
  · rw [protoOf_eq hplain, swept_eq_map hplain, prune_map_eq_iff (nodup_remove _ hnodup) (reading_sanitize _) (reading_cleaned _),
      prunes_remove]
    constructor
    · intro hall f hf
      refine ⟨fun hkey => hplain (hkey ▸ List.mem_map_of_mem hf), ?_⟩
      by_cases hnamed : f.1 = propertyNamesKey
      · exact .inl hnamed
      · rcases hall f (List.mem_filter.mpr ⟨hf, by simpa using hnamed⟩) with hpruned | heq
        · exact .inr (.inl hpruned)
        · exact .inr (.inr ((h f hf).mp heq))
    · intro hsafe f hf
      obtain ⟨hmem, hnamed⟩ := List.mem_filter.mp hf
      rcases (hsafe f hmem).2 with hnamed' | hpruned | hat
      · exact absurd hnamed' (by simpa using hnamed)
      · exact .inl hpruned
      · exact .inr ((h f hmem).mpr hat)

theorem sanitize_params_iff {params : List (Units × Json)} (hnodup : (params.map Prod.fst).Nodup)
    (h : ∀ f ∈ params, sanitizeToolSchema f.2 = cleaned f.2 ↔ Safe f.2) :
    sanitizeToolSchema (.obj params) = cleanedMap (.obj params) ↔ SafeMap (.obj params) := by
  rw [sanitize_obj hnodup, cleanedMap, Json.obj.injEq, SafeMap, safeParams_iff]
  have hsettled := settled_swept params (protoOf params)
  constructor
  · intro heq
    rw [heq] at hsettled
    refine ⟨hsettled, fun f hf => (h f hf).mp ?_⟩
    have hplain := hsettled.plain
    have hnamed := hsettled.named
    rw [keys_cleanedParams] at hplain hnamed
    rw [protoOf_eq hplain, swept_eq_map hplain, remove_eq_self hnamed, cleanedParams_eq] at heq
    have hget : ∀ g : Units × Json → Json, get f.1 (params.map fun f => (f.1, g f)) = some (g f) := fun g =>
      get_of_mem (f := (f.1, g f)) (by rwa [keys_map]) (List.mem_map_of_mem hf)
    have hmember := congrArg (get f.1) heq
    rw [hget fun f => cleaned f.2] at hmember
    by_cases hkey : f.1 = requiredKey
    · -- A pruned array has as many items as before only if none was pruned.
      by_cases hnone : ∀ rs declared, (seenIn (params.map fun f => (f.1, sanitizeToolSchema f.2)) .nothing).required.bind itemsOf = some rs →
          (seenIn (params.map fun f => (f.1, sanitizeToolSchema f.2)) .nothing).properties.bind objectKeys ≠ some declared
      · rw [prune_of_none hnone, hget fun f => sanitizeToolSchema f.2] at hmember
        exact Option.some.inj hmember
      · simp only [not_forall, not_not] at hnone
        obtain ⟨rs, declared, hr, hd⟩ := hnone
        rw [prune_of_some hr hd] at hmember
        rw [seenIn_nothing, ← hkey, hget fun f => sanitizeToolSchema f.2] at hr
        have hitems : itemsOf (sanitizeToolSchema f.2) = some rs := hr
        split_ifs at hmember with hempty
        · rw [hkey, get_remove_self] at hmember
          cases hmember
        · rw [hkey, get_assign_self required_ne_proto, Option.some.injEq] at hmember
          have hcleaned := (cleaned_kind f.2).1
          have hsanitized := (sanitize_kind f.2).1
          rw [← hmember, itemsOf] at hcleaned
          rw [hitems] at hsanitized
          obtain ⟨items, hitems', hmap⟩ := Option.map_eq_some_iff.mp hsanitized.symm
          rw [hitems', Option.map_some, Option.some.injEq] at hcleaned
          have hlen : (rs.filter (isDeclared declared)).length = rs.length := by
            rw [hcleaned, ← hmap, List.length_map, List.length_map]
          rw [← hmember, List.filter_eq_self.mpr (List.length_filter_eq_length_iff.mp hlen)]
          generalize sanitizeToolSchema f.2 = w at hitems
          cases w <;> simp only [itemsOf, Option.some.injEq, reduceCtorEq] at hitems
          rw [hitems]
    · rw [get_prune_ne hkey, hget fun f => sanitizeToolSchema f.2] at hmember
      exact Option.some.inj hmember
  · rintro ⟨hclean, hsafe⟩
    have hplain := hclean.plain
    have hnamed := hclean.named
    rw [keys_cleanedParams] at hplain hnamed
    have hswept : swept params = cleanedParams params := by
      rw [swept_eq_map hplain, remove_eq_self hnamed, cleanedParams_eq]
      exact List.map_congr_left fun f hf => by rw [(h f hf).mpr (hsafe f hf)]
    rw [protoOf_eq hplain, hswept, prune_of_settled (by rwa [keys_cleanedParams]) hclean]

theorem sanitize_eq_cleaned_iff (v : Json) (hv : DistinctKeys v) :
    (sanitizeToolSchema v = cleaned v ↔ Safe v) ∧ (sanitizeToolSchema v = cleanedMap v ↔ SafeMap v) := by
  induction v using induct with
  | hnull | hbool | hnum | hstr => exact ⟨iff_of_true rfl trivial, iff_of_true rfl trivial⟩
  | harr items ih =>
    refine ⟨?_, sanitize_eq_self_iff hv⟩
    rw [DistinctKeys, distinctKeysItems_iff] at hv
    rw [sanitize_arr, cleaned, cleanedItems_eq, Json.arr.injEq, List.map_inj_left, Safe, safeItems_iff]
    exact forall₂_congr fun v hmem => (ih v hmem (hv v hmem)).1
  | hobj fields ih =>
    have hv' := hv
    rw [DistinctKeys, distinctKeysFields_iff] at hv'
    refine ⟨sanitize_obj_iff hv'.1 fun f hf => ?_, sanitize_params_iff hv'.1 fun f hf => (ih f hf (hv'.2 f hf)).1⟩
    rw [cleanedAt, SafeAt]
    split_ifs
    · exact (ih f hf (hv'.2 f hf)).2
    · exact (ih f hf (hv'.2 f hf)).1
    · exact sanitize_eq_self_iff (hv'.2 f hf)

end SchemasAux

open Vault (JsonValue DistinctKeys)

open SchemasAux in
/-- Only what providers reject is changed just when nothing in the property maps and in the data of a schema looks like what is taken from a
schema. -/
theorem sanitizeToolSchema_sanitizes_iff (schema : JsonValue) : Sanitizes schema.val ↔ Safe schema.val := by
  rw [← (sanitize_eq_cleaned_iff schema.val schema.property).1]
  constructor
  · exact fun h => h.exact
  · intro h
    have hsettled := (sanitize_settled schema.val schema.property).1
    exact ⟨(atSchemas_of_atAll (fun _ hs => hs.declared) _ hsettled).1, (atSchemas_of_atAll (fun _ hs => hs.named) _ hsettled).1,
      sanitize_idempotent schema.property, h⟩

/-- The schema of a tool with one parameter, `propertyNames`. -/
def namedSchema : Json := .obj [(propertiesKey, .obj [(propertyNamesKey, .obj [])])]

/-- The names of the parameters. -/
def parameterNames : Json → Option (List Units)
  | .obj fields => (get propertiesKey fields).bind objectKeys
  | _ => none

/-- The parameter goes. -/
theorem parameter_removed : DistinctKeys namedSchema ∧ ¬Sanitizes namedSchema := by
  refine ⟨by simp [namedSchema, DistinctKeys, Vault.DistinctKeysFields], fun h => ?_⟩
  have hnames := congrArg parameterNames h.exact
  revert hnames
  decide +kernel

end ToolSchemas

end Capka
