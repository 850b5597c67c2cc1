import Mathlib
import ChunkedUpload.CommandLine.Run
import ChunkedUpload.Proofs.CommandLine.UploadArguments
import ChunkedUpload.Proofs.S3.Addresses
import ChunkedUpload.Proofs.Storage.Accepting

/-!
# Uploads to files from the command line

The whole way of an upload to a store in files: the arguments, the settings, the store that is
opened, the input, the parts, the sweep before the end, and what is printed. `upload_to_files` says
how the program ends and what has become of the tree, for every key that is accepted. One kind of
key is accepted and yet fails: with a dot at its end, as soon as there is a second part
(`upload_dotted_fails`).
-/

namespace ChunkedUpload.CommandLine

open Directory (LaterPart placeOf)
open Files (Location Node Path Tree under)

/-- What is uploaded: the content of the file that is named, or else the standard input. -/
def Supplies (w : World) (content : Bytes) : Option String → Prop
  | none => w.input = content
  | some file => w.tree.readFile (Path.ofText file) = .ok content

variable {w : World} {option file : Option String} {bucket key path : String} {settings : Path}
  {config : AppConfig} {loc : Location} {content : Bytes}

/-! ## Up to the open store -/

theorem validate_of_loadSettings {t : Tree} {environment : Environment}
    (h : loadSettings t environment settings = .ok config) : config.validate = .ok () := by
  unfold loadSettings at h
  simp only [bind, Except.bind] at h
  split at h
  · cases h
  split at h
  · cases h
  split at h
  · cases h
  split at h
  · next hvalid =>
    cases h
    exact hvalid
  · cases h

/-- A valid configuration cuts streams into parts that are not empty. -/
theorem new_of_validate (h : config.validate = .ok ()) :
    0 < config.uploader.chunkSize ∧
      Uploader.new config.uploader = .ok ⟨config.uploader.chunkSize, 0, {}⟩ := by
  have hvalid : config.uploader.validate = .ok () := by
    unfold AppConfig.validate at h
    cases huploader : config.uploader.validate with
    | ok => rfl
    | error error =>
      rw [huploader] at h
      cases h
  refine ⟨Nat.pos_of_ne_zero fun hzero => ?_, by rw [Uploader.new, hvalid]; rfl⟩
  rw [UploaderConfig.validate, if_pos hzero] at hvalid
  cases hvalid

/-- The store in files when it is opened: the directories of its root were made. -/
def storeOf (w : World) (path : String) : Directory where
  tree := (w.tree.makeDirAll (Path.ofText path)).2
  root := Path.ofText path
  ticket := w.ticket

/-- A store that takes an object could be opened. -/
theorem openAt_storeOf (h : (storeOf w path).Accepting loc bucket key) :
    Directory.openAt (Path.ofText path) w.tree w.ticket =
      (.ok (storeOf w path), (storeOf w path).tree) := by
  have hmade : (w.tree.makeDirAll (Path.ofText path)).1 = .ok () :=
    Files.Tree.isDir_of_makeDirAll _ _ h.isDir
  rw [Directory.openAt, storeOf]
  rcases hmake : w.tree.makeDirAll (Path.ofText path) with ⟨result, t⟩
  rw [hmake] at hmade
  cases hmade
  rfl

/-- Its tree is that of the world with more directories. -/
theorem storeOf_grows (w : World) (path : String) :
    w.tree.Grows (Path.Climbs (Path.ofText path)) [] (storeOf w path).tree :=
  Files.Tree.makeDirAll_grows _ _

theorem wellFormed_storeOf (hwell : w.tree.WellFormed) (path : String) :
    (storeOf w path).tree.WellFormed := hwell.makeDirAll _

/-- The input is there while the directories of the root are made. -/
theorem openInput_of_grown {t : Tree} {among : Path → Prop} (hgrown : w.tree.Grows among [] t)
    (h : Supplies w content file) : openInput t w.input file = .ok [.data content none] := by
  cases file with
  | none => rw [openInput, h]
  | some file =>
    obtain ⟨loc, hentry⟩ := Files.Tree.readFile_eq_ok.1 h
    have hentry' := Files.Tree.entry_of_kept hgrown.here hgrown.keeps hentry
    unfold openInput
    simp only [hentry']

/-- The request for a stream in one piece. -/
def requestFor (bucket key : String) (content : Bytes) : UploadRequest :=
  ⟨bucket, key, [.data content none]⟩

theorem steady_requestFor (bucket key : String) (content : Bytes) :
    (requestFor bucket key content).script.Steady :=
  Reader.Script.steady_of_flows (List.forall_mem_singleton.2 nofun)

theorem content_requestFor (bucket key : String) (content : Bytes) :
    (requestFor bucket key content).script.content = content := by
  cases content with
  | nil => rfl
  | cons byte bytes => exact List.append_nil _

/-- The program comes to the upload. -/
theorem run_eq_uploadTo (harguments : UploadArguments option bucket key file w.arguments)
    (hsettings : configPath? w option = some settings)
    (hconfig : loadSettings w.tree w.environment settings = .ok config)
    (hstorage : config.storage = .directory path)
    (hcontent : Supplies w content file) (haccepting : (storeOf w path).Accepting loc bucket key) :
    run w =
      let done := uploadTo ⟨config.uploader.chunkSize, 0, {}⟩ (requestFor bucket key content)
        (storeOf w path)
      (done.1, done.2.tree) := by
  have hbackend : Backend.openAt config.storage ⟨w.tree, w.ticket, {}, false⟩ =
      (.ok (.directory (storeOf w path)), (storeOf w path).tree) := by
    unfold Backend.openAt
    simp only [hstorage, StorageConfig.validate, openAt_storeOf haccepting]
    rfl
  have hnew := (new_of_validate (validate_of_loadSettings hconfig)).2
  rw [run, harguments.parse]
  simp only [hsettings, hconfig]
  rw [upload, Option.some_or]
  simp only [hbackend, hnew, openInput_of_grown (storeOf_grows w path) hcontent]
  rfl

/-! ## The whole way -/

/-- Where all parts have valid keys, the object is stored. -/
theorem run_stored (hwell : w.tree.WellFormed)
    (harguments : UploadArguments option bucket key file w.arguments)
    (hsettings : configPath? w option = some settings)
    (hconfig : loadSettings w.tree w.environment settings = .ok config)
    (hstorage : config.storage = .directory path)
    (hcontent : Supplies w content file) (haccepting : (storeOf w path).Accepting loc bucket key)
    (hdot : key.toList.getLast? = some '.' → content.length ≤ config.uploader.chunkSize) :
    ∃ tree, run w = (.success (summary ⟨bucket, key, content.length⟩ config.uploader.chunkSize
        (limitCount config.uploader.chunkSize content.length)), tree) ∧
      w.tree.Stored (under loc (placeOf (bucket, key))) content
        (LaterPart loc bucket key (partCount config.uploader.chunkSize content.length)) tree ∧
      tree.readFile (Directory.pathOf (Path.ofText path) bucket key) = .ok content := by
  have hsize := (new_of_validate (validate_of_loadSettings hconfig)).1
  have hstream := content_requestFor bucket key content
  obtain ⟨u', m', hupload, hchunk, hhits, hstored, hread⟩ :=
    haccepting.upload (wellFormed_storeOf hwell path) ⟨config.uploader.chunkSize, 0, {}⟩ hsize
      rfl (steady_requestFor bucket key content) (by rwa [hstream]) {}
  rw [hstream] at hupload hhits hstored hread
  refine ⟨_, ?_, (storeOf_grows w path).stored hstored, hread⟩
  rw [run_eq_uploadTo harguments hsettings hconfig hstorage hcontent haccepting]
  have hupload' : Uploader.upload ⟨config.uploader.chunkSize, 0, {}⟩
      (requestFor bucket key content) (⟨storeOf w path, {}⟩ : Metered Directory) = _ := hupload
  simp only [uploadTo, hupload']
  rw [show (u'.flush m').1.chunkSize = u'.chunkSize from rfl,
    show (u'.flush m').1.limitHits = u'.limitHits from rfl, hchunk, hhits]
  simp only [Nat.zero_add]

/-- Where the key of the second part is not valid, the program fails when it gets there. -/
theorem run_dotted (hwell : w.tree.WellFormed)
    (harguments : UploadArguments option bucket key file w.arguments)
    (hsettings : configPath? w option = some settings)
    (hconfig : loadSettings w.tree w.environment settings = .ok config)
    (hstorage : config.storage = .directory path)
    (hcontent : Supplies w content file) (haccepting : (storeOf w path).Accepting loc bucket key)
    (hdot : key.toList.getLast? = some '.') (hlong : config.uploader.chunkSize < content.length) :
    ∃ tree, run w = (.failure ["upload failed", "error uploading blob " ++ key,
        "invalid key: " ++ ("path traversal not allowed: " ++ Part.name key 2)], tree) ∧
      w.tree.Stored (under loc (placeOf (bucket, key)))
        (content.take config.uploader.chunkSize) (fun _ => False) tree := by
  have hsize := (new_of_validate (validate_of_loadSettings hconfig)).1
  have hstream := content_requestFor bucket key content
  obtain ⟨u', m', hupload, hstored⟩ :=
    haccepting.upload_dotted (wellFormed_storeOf hwell path) ⟨config.uploader.chunkSize, 0, {}⟩
      hsize rfl (steady_requestFor bucket key content) hdot (by rwa [hstream]) {}
  rw [hstream] at hstored
  refine ⟨_, ?_, (storeOf_grows w path).stored hstored⟩
  rw [run_eq_uploadTo harguments hsettings hconfig hstorage hcontent haccepting]
  have hupload' : Uploader.upload ⟨config.uploader.chunkSize, 0, {}⟩
      (requestFor bucket key content) (⟨storeOf w path, {}⟩ : Metered Directory) = _ := hupload
  simp only [uploadTo, hupload']
  rfl

/-- **Uploads to files.** A bucket and a key that the store accepts are uploaded from a file or from
the standard input: `content` replaces the object, the places of the later parts are cleared, and
nothing else is changed but for directories that were made. A key with a dot at its end makes an
exception as soon as there is a second part, because the key of that part has two dots in a row: the
program fails then, and the first part stays in the place of the object. -/
theorem upload_to_files (hwell : w.tree.WellFormed)
    (harguments : UploadArguments option bucket key file w.arguments)
    (hsettings : configPath? w option = some settings)
    (hconfig : loadSettings w.tree w.environment settings = .ok config)
    (hstorage : config.storage = .directory path)
    (hcontent : Supplies w content file) (haccepting : (storeOf w path).Accepting loc bucket key) :
    ∃ tree,
      if key.toList.getLast? = some '.' ∧ config.uploader.chunkSize < content.length then
        run w = (.failure ["upload failed", "error uploading blob " ++ key,
          "invalid key: " ++ ("path traversal not allowed: " ++ Part.name key 2)], tree) ∧
        w.tree.Stored (under loc (placeOf (bucket, key)))
          (content.take config.uploader.chunkSize) (fun _ => False) tree
      else
        run w = (.success (summary ⟨bucket, key, content.length⟩ config.uploader.chunkSize
          (if (composeLimit - 1) * config.uploader.chunkSize < content.length then 1 else 0)),
            tree) ∧
        w.tree.Stored (under loc (placeOf (bucket, key))) content
          (LaterPart loc bucket key (min composeLimit
            ((content.length + config.uploader.chunkSize - 1) / config.uploader.chunkSize))) tree ∧
        tree.readFile (Directory.pathOf (Path.ofText path) bucket key) = .ok content := by
  by_cases hbad : key.toList.getLast? = some '.' ∧ config.uploader.chunkSize < content.length
  · obtain ⟨tree, hrun⟩ := run_dotted hwell harguments hsettings hconfig hstorage hcontent
      haccepting hbad.1 hbad.2
    exact ⟨tree, by rwa [if_pos hbad]⟩
  · have hsize := (new_of_validate (validate_of_loadSettings hconfig)).1
    obtain ⟨tree, hrun⟩ := run_stored hwell harguments hsettings hconfig hstorage hcontent
      haccepting fun hdot => Nat.not_lt.1 fun hlong => hbad ⟨hdot, hlong⟩
    rw [partCount_eq_min hsize, Directory.laterPart_max_one] at hrun
    exact ⟨tree, by rwa [if_neg hbad]⟩

/-! ## Three bytes, two in a part -/

/-- A configuration for parts of two bytes. -/
def smallParts : String :=
  "[uploader]\nchunk_size = 2\n\n[storage]\ntype = \"filesystem\"\npath = \"root\"\n"

theorem loadSettings_smallParts {t : Tree} {file : Path}
    (h : configFile? t file = some (Bytes.ofText smallParts)) :
    loadSettings t [] file = .ok ⟨⟨2⟩, .directory "root", none⟩ := by
  have hvalue : fileValue? (some (Bytes.ofText smallParts)) =
      (Config.Toml.parse? smallParts >>= Config.Wrapped.unwrapFields?) := by
    simp only [fileValue?, Bytes.text?_ofText, Option.bind_eq_bind, Option.bind_some]
  unfold loadSettings
  rw [h, hvalue]
  decide +kernel

/-- A world with that configuration, some entries more, and three bytes to upload. -/
def threeBytes (key : String) (entries : List (Location × Node)) : World where
  arguments := ["upload", "--bucket=b", "--key=" ++ key]
  input := [97, 98, 99]
  tree := { entries := (["config"], .dir) ::
    (["stitch.toml", "config"], .file (Bytes.ofText smallParts)) :: entries }

theorem loadSettings_threeBytes (key : String) (entries : List (Location × Node)) :
    loadSettings (threeBytes key entries).tree [] ["config", "stitch.toml"] =
      .ok ⟨⟨2⟩, .directory "root", none⟩ := by
  refine loadSettings_smallParts ?_
  rw [threeBytes]
  generalize Bytes.ofText smallParts = content
  cbv

/-- An object with two of the parts of an upload that was not swept. -/
def leftovers : List (Location × Node) :=
  [(["root"], .dir), (["b", "root"], .dir), (["a", "b", "root"], .file [1]),
    (["a.chunk2", "b", "root"], .file [2]), (["a.chunk3", "b", "root"], .file [3])]

theorem storeOf_leftovers : storeOf (threeBytes "a" leftovers) "root" =
    ⟨(threeBytes "a" leftovers).tree, ["root"], 0⟩ := by
  rw [storeOf, threeBytes]
  generalize Bytes.ofText smallParts = content
  cbv

theorem accepting_leftovers :
    (storeOf (threeBytes "a" leftovers) "root").Accepting ["root"] "b" "a" := by
  rw [storeOf_leftovers]
  have hkey : Directory.checkKey "a" = .ok () := by decide +kernel
  refine .of_entries ?_ ⟨["root", "b", "a"], ?_⟩ (by simp [threeBytes, leftovers])
    (by decide +kernel) (by decide +kernel) (by decide +kernel) (by decide +kernel)
    (by decide +kernel) (by decide +kernel)
  · rw [threeBytes]
    generalize Bytes.ofText smallParts = content
    cbv
  · rw [threeBytes, Directory.objectPath, hkey]
    generalize Bytes.ofText smallParts = content
    cbv

theorem configPath_threeBytes (key : String) (entries : List (Location × Node)) :
    configPath? (threeBytes key entries) none = some ["config", "stitch.toml"] := by
  cbv

theorem supplies_threeBytes (key : String) (entries : List (Location × Node)) :
    Supplies (threeBytes key entries) [97, 98, 99] none := rfl

/-- The rest of an earlier upload does not get in the way: the first of its parts is cleared with
those of the new upload, and the other one stays. -/
theorem upload_to_files_over_leftovers :
    let w := threeBytes "a" leftovers
    w.tree.WellFormed ∧ (storeOf w "root").Accepting ["root"] "b" "a" ∧
      ∃ tree, run w = (.success
          "bucket: b\nname: a\nsize: 3\nchunk_size: 2\ncompose_limit_hits: 0\n", tree) ∧
        tree.node? ["a", "b", "root"] = some (.file [97, 98, 99]) ∧
        tree.node? ["a.chunk2", "b", "root"] = none ∧
        tree.node? ["a.chunk3", "b", "root"] = some (.file [3]) := by
  have hwell : (threeBytes "a" leftovers).tree.WellFormed := .of_entries rfl (by decide +kernel)
  obtain ⟨tree, hrun⟩ := upload_to_files hwell (.intro .unnamed .input)
    (configPath_threeBytes "a" leftovers) (loadSettings_threeBytes "a" leftovers) rfl
    (supplies_threeBytes "a" leftovers) accepting_leftovers
  rw [if_neg (by decide)] at hrun
  obtain ⟨hrun, hstored, -⟩ := hrun
  refine ⟨hwell, accepting_leftovers, tree, hrun, hstored.file, ?_, ?_⟩
  · exact hstored.cleared _ ⟨2, by decide, by decide, by decide +kernel⟩
  · have hother : ¬LaterPart ["root"] "b" "a" 2 ["a.chunk3", "b", "root"] := by
      rintro ⟨number, htwo, hcount, heq⟩
      obtain rfl : number = 2 := Nat.le_antisymm hcount htwo
      revert heq
      decide +kernel
    rcases hstored.others ["a.chunk3", "b", "root"] (by decide +kernel) hother with
      hsame | ⟨hnone, -⟩
    · exact hsame
    · cases hnone

theorem storeOf_dotted : storeOf (threeBytes "a." []) "root" =
    ⟨(threeBytes "a." []).tree.insert ["root"] .dir, ["root"], 0⟩ := by
  rw [storeOf, threeBytes]
  generalize Bytes.ofText smallParts = content
  cbv

theorem accepting_dotted :
    (storeOf (threeBytes "a." []) "root").Accepting ["root"] "b" "a." := by
  rw [storeOf_dotted]
  have hkey : Directory.checkKey "a." = .ok () := by decide +kernel
  refine .of_entries ?_ ⟨["root", "b", "a."], ?_⟩ (by simp [threeBytes, Tree.insert, Tree.erase])
    (by decide +kernel) (by decide +kernel) (by decide +kernel) (by decide +kernel)
    (by decide +kernel) (by decide +kernel)
  · rw [threeBytes]
    generalize Bytes.ofText smallParts = content
    cbv
  · rw [threeBytes, Directory.objectPath, hkey]
    generalize Bytes.ofText smallParts = content
    cbv

/-- A store can be ready for a key and an upload to it fail all the same, with nothing but its first
part in the place of the object. -/
theorem upload_dotted_fails :
    let w := threeBytes "a." []
    w.tree.WellFormed ∧ UploadArguments none "b" "a." none w.arguments ∧
      configPath? w none = some ["config", "stitch.toml"] ∧
      loadSettings w.tree w.environment ["config", "stitch.toml"] =
        .ok ⟨⟨2⟩, .directory "root", none⟩ ∧
      (storeOf w "root").Accepting ["root"] "b" "a." ∧
      ∃ tree, run w = (.failure ["upload failed", "error uploading blob a.",
          "invalid key: path traversal not allowed: a..chunk2"], tree) ∧
        tree.node? ["a.", "b", "root"] = some (.file [97, 98]) := by
  have hwell : (threeBytes "a." []).tree.WellFormed := .of_entries rfl (by decide +kernel)
  have hsettings := configPath_threeBytes "a." []
  have hconfig := loadSettings_threeBytes "a." []
  obtain ⟨tree, hrun, hstored⟩ := run_dotted hwell (.intro .unnamed .input) hsettings
    hconfig rfl (supplies_threeBytes "a." []) accepting_dotted (by decide) (by decide)
  exact ⟨hwell, .intro .unnamed .input, hsettings, hconfig, accepting_dotted, tree, hrun,
    hstored.file⟩

end ChunkedUpload.CommandLine
