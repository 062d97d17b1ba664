import Mathlib.Data.List.Forall2
import Mathlib.Logic.Function.Basic
import MoteBroker.Lib.Utf8
import MoteBroker.Topics

/-!
`TableMeta`: tables that messages define, each kept under a name that is made from its topic, and
which definitions take the place of another one.
-/

namespace MoteBroker.Tables

open MoteBroker.Topics

/-! ### Names and fields -/

/-- `parse_model_name`. -/
def parseModelName (topic : Str) : Str :=
  ((topic.map fun c => if c = '/' then '_' else c).filter fun c => c ≠ '+').filter fun c => c ≠ '#'

/-- A value of `json.loads`. -/
inductive Json
  | null
  | bool (b : Bool)
  | num (text : Str)
  | str (s : Str)
  | arr (elements : List Json)
  | obj (members : List (Str × Json))

inductive FieldClass
  | charField
  | positiveIntegerField
  | integerField
  | urlField
  | binaryField
  deriving DecidableEq, Repr

def fieldClassMap : List (Str × FieldClass) :=
  [("char".toList, .charField), ("uint".toList, .positiveIntegerField),
    ("int".toList, .integerField), ("url".toList, .urlField), ("bytes".toList, .binaryField)]

/-- What `create_table` raises. -/
inductive Error
  | raised (e : Exc)
  | corruptModelError (message : Str)
  /-- `TypeError(f"Field {field_name} has invalid type: {type_name}")`. -/
  | invalidType (field_name : Str) (type_name : Json)

/-- An attribute of a model class. -/
inductive Attr (Field : Type)
  | field (f : Field)
  | text (s : Str)

/-- What is called of `json` and of Django, with the world that Django keeps beside the rows of
`TableMeta`: its registry of models, the migrations and the other tables of the database. -/
structure Library where
  Field : Type
  Model : Type
  World : Type
  /-- `none` is `JSONDecodeError`. -/
  loads : Str → Option Json
  field : FieldClass → List (Str × Json) → Except Exc Field
  /-- `type(model_name, (Model,), attrs)`. -/
  modelClass : Str → List (Str × Attr Field) → World → Except Exc Model × World
  callCommand : Str → Str → World → Except Exc Unit × World

/-- `(type_name, field_attrs) = value`. -/
def unpackPair : Json → Except Exc (Json × Json)
  | .arr [a, b] => .ok (a, b)
  | .str [c, d] => .ok (.str [c], .str [d])
  | .obj [(k, _), (l, _)] => .ok (.str k, .str l)
  | .arr _ | .str _ | .obj _ => .error .valueError
  | .null | .bool _ | .num _ => .error .typeError

/-- `**field_attrs`, beside the two arguments that have a name already. -/
def keywords : Json → Except Exc (List (Str × Json))
  | .obj members =>
    if ∃ m ∈ members, m.1 = "field_name".toList ∨ m.1 = "type_name".toList then .error .typeError
    else .ok members
  | _ => .error .typeError

/-- `field_class_map.get(type_name, None)`. Arrays and objects have no hash. -/
def getFieldClass : Json → Except Exc (Option FieldClass)
  | .str s => .ok (fieldClassMap.lookup s)
  | .null | .bool _ | .num _ => .ok none
  | .arr _ | .obj _ => .error .typeError

/-- `fields.items()`. -/
def items : Json → Except Exc (List (Str × Json))
  | .obj members => .ok members
  | _ => .error .attributeError

/-- `attrs[key] = value`. -/
def setAttr {α : Type} (key : Str) (value : α) : List (Str × α) → List (Str × α)
  | [] => [(key, value)]
  | (k, v) :: attrs => if k = key then (k, value) :: attrs else (k, v) :: setAttr key value attrs

section
variable (L : Library)

def parseField (field_name : Str) (type_name : Json) (field_attrs : List (Str × Json)) :
    Except Error L.Field := do
  match ← (getFieldClass type_name).mapError .raised with
  | none => .error (.invalidType field_name type_name)
  | some type_class => (L.field type_class field_attrs).mapError .raised

/-- The loop of `parse_fields`. -/
def parseFields : List (Str × Json) → Except Error (List (Str × Attr L.Field))
  | [] => .ok []
  | (field_name, value) :: fields => do
    let (type_name, field_attrs) ← (unpackPair value).mapError .raised
    let field_attrs ← (keywords field_attrs).mapError .raised
    let field ← parseField L field_name type_name field_attrs
    return (field_name, .field field) :: (← parseFields fields)

def createModelClass (topic : Str) (fields : Json) (world : L.World) :
    Except Error L.Model × L.World :=
  let model_name := parseModelName topic
  match (items fields).mapError .raised >>= parseFields L with
  | .error e => (.error e, world)
  | .ok attrs =>
    let attrs := setAttr "__module__".toList (.text "tables.models".toList) attrs
    let (model, world) := L.modelClass model_name attrs world
    (model.mapError .raised, world)

/-! ### Tables -/

structure TableMeta where
  name : Str
  topic : Str
  field_bytes : Bytes
  deriving DecidableEq, Repr

def TableMeta.build (table : TableMeta) (world : L.World) : Except Error L.Model × L.World :=
  match Utf8.decode table.field_bytes with
  | none => (.error (.raised .unicodeDecodeError), world)
  | some text =>
    match L.loads text with
    | none => (.error (.corruptModelError "Could not parse JSON".toList), world)
    | some fields => createModelClass L table.topic fields world

/-- The rows of `TableMeta` by their primary key, and the rest of the world. -/
structure Store where
  rows : Str → Option TableMeta
  world : L.World

variable {L}

/-- `table.save()` updates the row with the same primary key, or inserts one. -/
def Store.save (store : Store L) (table : TableMeta) : Store L :=
  { store with rows := Function.update store.rows table.name (some table) }

/-- `call_command` with the name of the app. -/
def Store.callCommand (store : Store L) (command : Str) : Except Error Unit × Store L :=
  let (result, world) := L.callCommand command "tables".toList store.world
  (result.mapError .raised, { store with world := world })

def Store.createTable (store : Store L) (topic_str : Str) (field_data : Bytes) :
    Except Error L.Model × Store L :=
  let table : TableMeta := ⟨parseModelName topic_str, topic_str, field_data⟩
  match table.build L store.world with
  | (.error e, world) => (.error e, { store with world := world })
  | (.ok model, world) =>
    match (({ store with world := world } : Store L).save table).callCommand
        "makemigrations".toList with
    | (.error e, store) => (.error e, store)
    | (.ok _, store) =>
      match store.callCommand "migrate".toList with
      | (.error e, store) => (.error e, store)
      | (.ok _, store) => (.ok model, store)

/-- The definition is stored, with the topic and the fields as they were given. -/
def Store.Stores (store : Store L) (topic : Str) (field_data : Bytes) : Prop :=
  store.rows (parseModelName topic) = some ⟨parseModelName topic, topic, field_data⟩

end

/-! ### Topics with one name -/

/-- The characters of a topic that are not left out of its name. -/
def kept (topic : Str) : Str := topic.filter fun c => c ≠ '+' ∧ c ≠ '#'

/-- Two characters that are the same in a name. -/
def Alike (c d : Char) : Prop := c = d ∨ (c = '/' ∨ c = '_') ∧ (d = '/' ∨ d = '_')

instance (c d : Char) : Decidable (Alike c d) :=
  inferInstanceAs (Decidable (c = d ∨ (c = '/' ∨ c = '_') ∧ (d = '/' ∨ d = '_')))

lemma alike_iff (c d : Char) :
    Alike c d ↔ (if c = '/' then '_' else c) = if d = '/' then '_' else d := by
  unfold Alike
  by_cases hc : c = '/'
  · by_cases hd : d = '/'
    · simp [hc, hd]
    · simp [hc, hd, eq_comm]
  · by_cases hd : d = '/'
    · simp [hc, hd]
    · simp only [hc, hd, if_false, false_or]
      constructor
      · rintro (h | ⟨rfl, rfl⟩)
        · exact h
        · rfl
      · exact .inl

/-- The separators become underscores after the cards are left out. -/
lemma parseModelName_eq_map (topic : Str) :
    parseModelName topic = (kept topic).map fun c => if c = '/' then '_' else c := by
  unfold parseModelName kept
  induction topic with
  | nil => rfl
  | cons c topic ih =>
    by_cases hslash : c = '/'
    · subst hslash
      simpa using ih
    · by_cases hplus : c = '+'
      · subst hplus
        simpa using ih
      · by_cases hhash : c = '#'
        · subst hhash
          simpa using ih
        · simpa [hslash, hplus, hhash] using ih

/-- **Which topics have one name.** -/
theorem parseModelName_eq_iff (s t : Str) :
    parseModelName s = parseModelName t ↔ List.Forall₂ Alike (kept s) (kept t) := by
  rw [parseModelName_eq_map, parseModelName_eq_map, ← List.forall₂_eq_eq_eq,
    List.forall₂_map_left_iff, List.forall₂_map_right_iff]
  constructor
  · exact List.Forall₂.imp fun c d h => (alike_iff c d).mpr h
  · exact List.Forall₂.imp fun c d h => (alike_iff c d).mp h

section
variable {L : Library}

/-- The commands leave the definitions as they are. -/
lemma rows_callCommand {store store' : Store L} {command : Str} {r : Except Error Unit}
    (h : store.callCommand command = (r, store')) : store'.rows = store.rows := by
  cases h
  rfl

/-- A call that returns has saved the definition, and no other row has changed. -/
lemma rows_createTable {store store' : Store L} {topic : Str} {field_data : Bytes} {model : L.Model}
    (h : store.createTable topic field_data = (.ok model, store')) :
    store'.rows = Function.update store.rows (parseModelName topic)
      (some ⟨parseModelName topic, topic, field_data⟩) := by
  unfold Store.createTable at h
  dsimp only at h
  split at h
  case h_1 => cases h
  case h_2 model' world hbuild =>
    split at h
    case h_1 => cases h
    case h_2 store₁ hmakemigrations =>
      split at h
      case h_1 => cases h
      case h_2 store₂ hmigrate =>
        cases h
        rw [rows_callCommand hmigrate, rows_callCommand hmakemigrations]
        rfl

/-- **Which tables are not overwritten.** After two calls of `create_table` with different topics
have returned, both definitions are stored exactly if the topics, without their cards, differ by
more than slashes in place of underscores. -/
theorem both_stored_iff {store store₁ store₂ : Store L} {s t : Str} (hst : s ≠ t) {fs ft : Bytes}
    {m₁ m₂ : L.Model} (h₁ : store.createTable s fs = (.ok m₁, store₁))
    (h₂ : store₁.createTable t ft = (.ok m₂, store₂)) :
    store₂.Stores s fs ∧ store₂.Stores t ft ↔ ¬List.Forall₂ Alike (kept s) (kept t) := by
  have hrows₁ := rows_createTable h₁
  have hrows₂ := rows_createTable h₂
  rw [← parseModelName_eq_iff]
  constructor
  · rintro ⟨hs, ht⟩ hname
    unfold Store.Stores at hs ht
    rw [hname, ht] at hs
    cases hs
    exact hst rfl
  · intro hname
    refine ⟨?_, ?_⟩
    · rw [Store.Stores, hrows₂, Function.update_of_ne hname, hrows₁, Function.update_self]
    · rw [Store.Stores, hrows₂, Function.update_self]

end

/-- A library in which an empty object is read and every class is made. -/
def library : Library where
  Field := FieldClass
  Model := Str
  World := List Str
  loads text := if text = "{}".toList then some (.obj []) else none
  field type_class _ := .ok type_class
  modelClass model_name _ models := (.ok model_name, models ++ [model_name])
  callCommand _ _ world := (.ok (), world)

def noTables : Store library := ⟨fun _ => none, []⟩

/-- The definition without fields. -/
def noFields : Bytes := Utf8.encode "{}".toList

lemma createTable_noFields (store : Store library) (topic : Str) :
    ∃ model store', store.createTable topic noFields = (.ok model, store') := by
  have hbuild : ∃ model world,
      (⟨parseModelName topic, topic, noFields⟩ : TableMeta).build library store.world =
        (.ok model, world) := by
    unfold TableMeta.build noFields
    rw [Utf8.decode_encode]
    exact ⟨_, _, rfl⟩
  obtain ⟨model, world, hbuild⟩ := hbuild
  unfold Store.createTable
  dsimp only
  rw [hbuild]
  exact ⟨_, _, rfl⟩

theorem both_stored_doors :
    ∃ store₁ store₂ m₁ m₂, noTables.createTable "a/door".toList noFields = (.ok m₁, store₁) ∧
      store₁.createTable "b/door".toList noFields = (.ok m₂, store₂) ∧
      store₂.Stores "a/door".toList noFields ∧ store₂.Stores "b/door".toList noFields := by
  obtain ⟨m₁, store₁, h₁⟩ := createTable_noFields noTables "a/door".toList
  obtain ⟨m₂, store₂, h₂⟩ := createTable_noFields store₁ "b/door".toList
  have hiff := both_stored_iff (by decide) h₁ h₂
  exact ⟨store₁, store₂, _, _, h₁, h₂, hiff.mpr (by decide)⟩

/-- A table takes the place of another one whose topic has a slash for its underscore. -/
theorem slash_overwritten :
    ∃ store₁ store₂ m₁ m₂, noTables.createTable "a/b".toList noFields = (.ok m₁, store₁) ∧
      store₁.createTable "a_b".toList noFields = (.ok m₂, store₂) ∧
      ¬(store₂.Stores "a/b".toList noFields ∧ store₂.Stores "a_b".toList noFields) := by
  obtain ⟨m₁, store₁, h₁⟩ := createTable_noFields noTables "a/b".toList
  obtain ⟨m₂, store₂, h₂⟩ := createTable_noFields store₁ "a_b".toList
  have hname : parseModelName "a/b".toList = parseModelName "a_b".toList := by decide
  refine ⟨store₁, store₂, _, _, h₁, h₂, ?_⟩
  rintro ⟨hs, ht⟩
  unfold Store.Stores at hs ht
  rw [hname, ht] at hs
  cases hs

end MoteBroker.Tables
