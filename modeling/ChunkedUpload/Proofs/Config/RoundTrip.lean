import Mathlib.Data.List.Nodup
import ChunkedUpload.Proofs.Config.JsonValues

/-!
# A configuration is read as it was written

A table of fields with different names gives each field back, and passes over the others
(`fieldsOf?_tableOf`). So each section is read from its own fields, the storage section after its
kind (`AppConfig.ofValue?_toValue`). The table of all fields is a value that JSON has if the chunk
size has 64 bits, as that of every configuration that is read (`AppConfig.chunkSize_lt`), so the
printed text is read as the same configuration (`AppConfig.json_round_trip`).
-/

namespace ChunkedUpload.Config

/-! ## Fields of a table -/

/-- Entries whose keys are texts. -/
def entriesOf (fields : List (String × Value)) : List (Option String × Value) :=
  fields.map fun (key, value) => (some key, value)

variable {fields : List (String × Value)} {key : String} {value : Value}

theorem under_cons (name : String) (v : Value) :
    Value.under key (entriesOf ((name, v) :: fields)) =
      if name = key then v :: Value.under key (entriesOf fields)
      else Value.under key (entriesOf fields) := by
  by_cases h : name = key <;> simp [Value.under, entriesOf, h]

theorem under_eq_nil (h : key ∉ fields.map (·.1)) : Value.under key (entriesOf fields) = [] := by
  induction fields with
  | nil => rfl
  | cons field fields ih =>
    obtain ⟨hfirst, hrest⟩ := not_or.1 (mt List.mem_cons.2 h)
    rw [under_cons, if_neg (Ne.symm hfirst), ih hrest]

/-- Fields with different names have one value each. -/
theorem under_eq_singleton (hnodup : (fields.map (·.1)).Nodup) (h : (key, value) ∈ fields) :
    Value.under key (entriesOf fields) = [value] := by
  induction fields with
  | nil => cases h
  | cons field fields ih =>
    obtain ⟨hfirst, hnodup⟩ := List.nodup_cons.1 hnodup
    rcases List.mem_cons.1 h with rfl | hrest
    case inl => rw [under_cons, if_pos rfl, under_eq_nil hfirst]
    case inr =>
      have hother : field.1 ≠ key := by
        rintro rfl
        exact hfirst (List.mem_map.2 ⟨_, hrest, rfl⟩)
      rw [under_cons, if_neg hother, ih hnodup hrest]

/-- Fields that a table has once each are read. -/
theorem fieldsOf?_table (surplus : Surplus) {entries : List (Option String × Value)}
    (hkeys : ∀ entry ∈ entries, entry.1.isSome = true)
    (h : ∀ field ∈ fields, Value.under field.1 entries = [field.2]) :
    fieldsOf? surplus (fields.map (·.1)) (.table entries) = some (fields.map (some ·.2)) := by
  rw [fieldsOf?, if_pos (List.all_eq_true.2 hkeys)]
  induction fields with
  | nil => rfl
  | cons field fields ih =>
    obtain ⟨hfield, hrest⟩ := List.forall_mem_cons.1 h
    simp only [List.map_cons, List.mapM_cons, hfield, ih hrest]
    rfl

theorem isSome_of_mem_entriesOf : ∀ entry ∈ entriesOf fields, entry.1.isSome = true := by
  intro entry hentry
  obtain ⟨_, _, rfl⟩ := List.mem_map.1 hentry
  rfl

/-- The known fields of a table are read, and the others are passed over. -/
theorem fieldsOf?_tableOf (surplus : Surplus) {others : List (String × Value)}
    (hnodup : ((others ++ fields).map (·.1)).Nodup) :
    fieldsOf? surplus (fields.map (·.1)) (tableOf (others ++ fields)) =
      some (fields.map (some ·.2)) :=
  fieldsOf?_table surplus isSome_of_mem_entriesOf fun _ hfield =>
    under_eq_singleton hnodup (List.mem_append_right _ hfield)

theorem isJson_tableOf (h : ∀ field ∈ fields, field.2.IsJson) : (tableOf fields).IsJson := by
  refine .table isSome_of_mem_entriesOf fun entry hentry => ?_
  obtain ⟨field, hfield, rfl⟩ := List.mem_map.1 hentry
  exact h field hfield

theorem isReadable_tableOf {depth : Nat} (h : ∀ field ∈ fields, field.2.isReadable depth = true) :
    (tableOf fields).isReadable (depth + 1) = true := by
  show Value.entriesReadable depth (entriesOf fields) = true
  induction fields with
  | nil => rfl
  | cons field fields ih =>
    obtain ⟨hfield, hrest⟩ := List.forall_mem_cons.1 h
    show (true && field.2.isReadable depth && _) = true
    rw [hfield, Bool.true_and, Bool.true_and]
    exact ih hrest

/-! ## Values of fields -/

theorem size?_whole {size default : Nat} (h : size < sizeLimit) :
    size? default (some (.whole size)) = some size := by
  rw [size?, if_pos ⟨Int.natCast_nonneg _, Int.ofNat_lt.2 h⟩, Int.toNat_natCast]

theorem optionalText?_ofOptional (s : Option String) :
    optionalText? (some (ofOptional s)) = some s := by
  cases s <;> rfl

theorem optionalName?_ofOptional (s : Option String) :
    optionalName? (some (ofOptional s)) = some s := by
  cases s <;> rfl

theorem isJson_ofOptional (s : Option String) : (ofOptional s).IsJson := by
  cases s
  case none => exact .null
  case some s => exact .text s

theorem isReadable_ofOptional (s : Option String) (depth : Nat) :
    (ofOptional s).isReadable depth = true := by
  cases s <;> cases depth <;> rfl

end ChunkedUpload.Config

namespace ChunkedUpload

open Config

/-! ## Sections -/

theorem UploaderConfig.ofValue?_of_fields {surplus : Surplus} {v chunkSize : Value}
    (h : fieldsOf? surplus ["chunk_size"] v = some [some chunkSize]) :
    ofValue? surplus v =
      (size? ({} : UploaderConfig).chunkSize (some chunkSize)).map UploaderConfig.mk := by
  -- any value: with the written one here, `rfl` would count up to the limit of sizes
  rw [ofValue?, h]
  rfl

theorem UploaderConfig.ofValue?_toValue (surplus : Surplus) {c : UploaderConfig}
    (hsize : c.chunkSize < sizeLimit) : ofValue? surplus c.toValue = some c := by
  have hfields : fieldsOf? surplus ["chunk_size"] c.toValue = some [some (.whole c.chunkSize)] :=
    @fieldsOf?_tableOf [("chunk_size", .whole c.chunkSize)] surplus [] (List.nodup_singleton _)
  rw [ofValue?_of_fields hfields, size?_whole hsize]
  rfl

/-- The fields of a service with their values. -/
def ServiceConfig.fields (c : ServiceConfig) : List (String × Value) :=
  [("endpoint", ofOptional c.endpoint), ("region", ofOptional c.region),
    ("prefix", ofOptional c.keyPrefix), ("access_key_id", ofOptional c.accessKeyId),
    ("secret_access_key", ofOptional c.secretAccessKey),
    ("force_path_style", .bool c.forcePathStyle)]

theorem ServiceConfig.serviceOf?_fields (c : ServiceConfig) :
    serviceOf? (c.fields.map (some ·.2)) = some c := by
  simp only [fields, List.map_cons, List.map_nil, serviceOf?, optionalText?_ofOptional]
  rfl

/-- A storage section starts with its kind. -/
theorem StorageConfig.ofValue?_tableOf (kind : StorageKind) {fields : List (String × Value)}
    (hnames : (kindField :: fields.map (·.1)).Nodup) :
    ofValue? (tableOf ((kindField, .text kind.word) :: fields)) =
      storageOf? kind (tableOf ((kindField, .text kind.word) :: fields)) := by
  have htag : Value.under kindField (entriesOf ((kindField, .text kind.word) :: fields)) =
      [.text kind.word] := under_eq_singleton hnames List.mem_cons_self
  have hkind : StorageKind.ofTag? (.text kind.word) = some kind := by
    cases kind <;> decide
  rw [tableOf, ofValue?, ← entriesOf, htag]
  show (StorageKind.ofTag? (.text kind.word)).bind _ = _
  rw [hkind]
  rfl

theorem StorageConfig.ofValue?_toValue (c : StorageConfig) : ofValue? c.toValue = some c := by
  cases c with
  | directory path =>
    have hnames : (kindField :: directoryFields).Nodup := by decide
    have hfields := @fieldsOf?_tableOf [("path", .text path)] .refused
      [(kindField, .text StorageKind.directory.word)] hnames
    refine (@ofValue?_tableOf .directory [("path", .text path)] hnames).trans ?_
    rw [storageOf?]
    exact congrArg (Option.bind · _) hfields
  | service settings =>
    have hnames : (kindField :: serviceFields).Nodup := by decide
    have hfields : fieldsOf? .refused serviceFields (StorageConfig.service settings).toValue =
        some (settings.fields.map (some ·.2)) :=
      @fieldsOf?_tableOf settings.fields .refused
        [(kindField, .text StorageKind.service.word)] hnames
    refine (@ofValue?_tableOf .service settings.fields hnames).trans ?_
    show ((fieldsOf? .refused serviceFields (StorageConfig.service settings).toValue).bind
      serviceOf?).map _ = _
    rw [hfields, Option.bind_some, settings.serviceOf?_fields]
    rfl

theorem AppConfig.ofValue?_of_fields {surplus : Surplus} {v uploader storage defaultBucket : Value}
    (h : fieldsOf? surplus ["uploader", "storage", "default_bucket"] v =
      some [some uploader, some storage, some defaultBucket]) :
    ofValue? surplus v = (do
      some {
        uploader := ← UploaderConfig.ofValue? surplus uploader
        storage := ← StorageConfig.ofValue? storage
        defaultBucket := ← optionalName? (some defaultBucket) }) := by
  rw [ofValue?, h]
  rfl

/-- The fields of a configuration with their values. -/
def AppConfig.fields (c : AppConfig) : List (String × Value) :=
  [("uploader", c.uploader.toValue), ("storage", c.storage.toValue),
    ("default_bucket", ofOptional c.defaultBucket)]

theorem AppConfig.nodup_fields (c : AppConfig) : (c.fields.map (·.1)).Nodup := by
  show ["uploader", "storage", "default_bucket"].Nodup
  decide

theorem AppConfig.ofValue?_toValue (surplus : Surplus) {c : AppConfig}
    (hsize : c.uploader.chunkSize < sizeLimit) : ofValue? surplus c.toValue = some c := by
  have hfields : fieldsOf? surplus ["uploader", "storage", "default_bucket"] c.toValue =
      some [some c.uploader.toValue, some c.storage.toValue, some (ofOptional c.defaultBucket)] :=
    @fieldsOf?_tableOf c.fields surplus [] c.nodup_fields
  rw [ofValue?_of_fields hfields, UploaderConfig.ofValue?_toValue surplus hsize,
    StorageConfig.ofValue?_toValue, optionalName?_ofOptional]
  rfl

/-! ## Values of JSON -/

theorem UploaderConfig.isJson_toValue {c : UploaderConfig} (hsize : c.chunkSize < sizeLimit) :
    c.toValue.IsJson := by
  have hmost : (c.chunkSize : Int) < 0x10000000000000000 := Int.ofNat_lt.2 hsize
  exact isJson_tableOf (List.forall_mem_singleton.2 (.whole (by omega) hmost))

theorem StorageConfig.isJson_toValue (c : StorageConfig) : c.toValue.IsJson := by
  cases c with
  | directory path => exact isJson_tableOf (by simp [Value.IsJson.text])
  | service settings =>
    exact isJson_tableOf (by simp [Value.IsJson.text, Value.IsJson.bool, isJson_ofOptional])

theorem AppConfig.isJson_toValue {c : AppConfig} (hsize : c.uploader.chunkSize < sizeLimit) :
    c.toValue.IsJson :=
  isJson_tableOf (by
    simp [UploaderConfig.isJson_toValue hsize, StorageConfig.isJson_toValue, isJson_ofOptional])

theorem StorageConfig.isReadable_toValue (c : StorageConfig) :
    c.toValue.isReadable storageDepth = true := by
  cases c with
  | directory path => exact isReadable_tableOf (by simp [Value.isReadable])
  | service settings => exact isReadable_tableOf (by simp [Value.isReadable, isReadable_ofOptional])

theorem AppConfig.storageSections_toValue (c : AppConfig) :
    storageSections c.toValue = [c.storage.toValue] :=
  under_eq_singleton c.nodup_fields (List.mem_cons_of_mem _ List.mem_cons_self)

theorem AppConfig.ofJson?_toJson {c : AppConfig} (hsize : c.uploader.chunkSize < sizeLimit) :
    ofJson? c.toJson = some c := by
  have hreadable : (storageSections c.toValue).all (Value.isReadable storageDepth) = true := by
    rw [c.storageSections_toValue, List.all_cons, c.storage.isReadable_toValue]
    rfl
  rw [ofJson?, toJson, JsonText.parse?_print (isJson_toValue hsize), Option.bind_eq_bind,
    Option.bind_some, if_pos hreadable, ofValue?_toValue .refused hsize]

/-! ## Sizes that are read -/

theorem Config.size?_lt {default size : Nat} {field : Option Value} (hdefault : default < sizeLimit)
    (h : size? default field = some size) : size < sizeLimit := by
  unfold size? at h
  split at h
  case h_1 => exact Option.some.inj h ▸ hdefault
  case h_2 =>
    obtain ⟨hsize, heq⟩ := Option.ite_none_right_eq_some.1 h
    have hread := Option.some.inj heq
    omega
  case h_3 =>
    obtain ⟨hsize, heq⟩ := Option.ite_none_right_eq_some.1 h
    exact Option.some.inj heq ▸ hsize
  case h_4 => cases h

theorem UploaderConfig.default_chunkSize_lt : ({} : UploaderConfig).chunkSize < sizeLimit := by
  decide

theorem UploaderConfig.chunkSize_lt {surplus : Surplus} {v : Value} {c : UploaderConfig}
    (h : ofValue? surplus v = some c) : c.chunkSize < sizeLimit := by
  obtain ⟨fields, -, hfields⟩ := Option.bind_eq_some_iff.1 h
  split at hfields
  case h_1 chunkSize =>
    obtain ⟨size, hsize, rfl⟩ := Option.map_eq_some_iff.1 hfields
    exact size?_lt default_chunkSize_lt hsize
  case h_2 => cases hfields

/-- Whatever a configuration was read from, its chunk size has 64 bits. -/
theorem AppConfig.chunkSize_lt {surplus : Surplus} {v : Value} {c : AppConfig}
    (h : ofValue? surplus v = some c) : c.uploader.chunkSize < sizeLimit := by
  obtain ⟨fields, -, hfields⟩ := Option.bind_eq_some_iff.1 h
  split at hfields
  case h_1 uploader storage defaultBucket =>
    obtain ⟨uploaderConfig, huploader, hrest⟩ := Option.bind_eq_some_iff.1 hfields
    obtain ⟨_, -, hrest⟩ := Option.bind_eq_some_iff.1 hrest
    obtain ⟨_, -, hread⟩ := Option.bind_eq_some_iff.1 hrest
    obtain rfl := Option.some.inj hread
    cases uploader
    case none =>
      obtain rfl := Option.some.inj huploader
      exact UploaderConfig.default_chunkSize_lt
    case some v => exact UploaderConfig.chunkSize_lt huploader
  case h_2 => cases hfields

/-! ## The round trip -/

/-- What is said of the chunk size, of the storage section and of the whole. -/
def AppConfig.verdicts (c : AppConfig) : List (Except ConfigError Unit) :=
  [c.uploader.validate, c.storage.validate, c.validate]

/-- **A configuration is read as it was written.** If its chunk size has 64 bits, its text holds the
value of all its fields and is read as the same configuration, whichever texts it has and whatever
is in them. So is the text of a configuration that was read itself, from JSON or from any other
source, since its chunk size has 64 bits. What was said of it is then said again. -/
theorem AppConfig.json_round_trip :
    (∀ c : AppConfig, c.uploader.chunkSize < sizeLimit →
      JsonText.parse? c.toJson = some c.toValue ∧ ofJson? c.toJson = some c) ∧
    (∀ surplus v c, ofValue? surplus v = some c → ofJson? c.toJson = some c) ∧
    ∀ text c, ofJson? text = some c → ofJson? c.toJson = some c ∧
      (ofJson? c.toJson).map verdicts = (ofJson? text).map verdicts := by
  have hagain : ∀ {surplus v c}, ofValue? surplus v = some c → ofJson? c.toJson = some c :=
    fun hread => ofJson?_toJson (chunkSize_lt hread)
  refine ⟨fun c hsize => ⟨JsonText.parse?_print (isJson_toValue hsize), ofJson?_toJson hsize⟩,
    fun _ _ _ => hagain, fun text c hread => ?_⟩
  obtain ⟨v, -, hv⟩ := Option.bind_eq_some_iff.1 hread
  obtain ⟨-, hvalue⟩ := Option.ite_none_right_eq_some.1 hv
  exact ⟨hagain hvalue, by rw [hagain hvalue, hread]⟩

/-- The largest chunk size, texts that need escapes and texts that are absent; a source without any
field; and a text that has a field too much, an escaped code and only half of the credentials. -/
theorem AppConfig.json_round_trip_service :
    let c : AppConfig :=
      { uploader := ⟨0xFFFFFFFFFFFFFFFF⟩
        storage := .service
          { endpoint := some "http://\"caf\u00e9\"\\\x1f\n", keyPrefix := some "",
            secretAccessKey := some "null", forcePathStyle := true }
        defaultBucket := some "b\u2028\x00" }
    let text :=
      "\x7b\"storage\":\x7b\"type\":\"s3\",\"path\":1.5e3,\"access_key_id\":\"\\u000a\"\x7d\x7d"
    let d : AppConfig := { storage := .service { accessKeyId := some "\n" } }
    c.uploader.chunkSize < sizeLimit ∧ ofJson? c.toJson = some c ∧
      ofValue? .passed (.list []) = some {} ∧ ofJson? ({} : AppConfig).toJson = some {} ∧
      ofJson? text = some d ∧ ofJson? d.toJson = some d ∧
      (ofJson? d.toJson).map verdicts = (ofJson? text).map verdicts := by
  intro c text d
  have hsize : c.uploader.chunkSize < sizeLimit := by decide
  have hread : ofJson? text = some d := by decide +kernel
  have hdefault : ofValue? .passed (.list []) = some {} := by decide
  exact ⟨hsize, (json_round_trip.1 c hsize).2, hdefault, json_round_trip.2.1 _ _ _ hdefault, hread,
    json_round_trip.2.2 text d hread⟩

end ChunkedUpload
