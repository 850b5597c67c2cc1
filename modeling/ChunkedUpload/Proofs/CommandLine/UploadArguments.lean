import Mathlib.Data.List.TakeWhile
import ChunkedUpload.CommandLine.Arguments

/-!
# Arguments for an upload

`UploadArguments` are the arguments that name a bucket and a key with their options, a configuration
file in front of the command, and a file behind them. `parse` reads just that from them
(`UploadArguments.parse`), whatever the texts are.
-/

namespace ChunkedUpload.CommandLine

/-- The arguments that name the input: none for the standard input. -/
inductive FileArguments : Option String → List String → Prop
  | input : FileArguments none []
  | plain {file : String} :
      file ≠ "" → Shape.of file = .plain file → FileArguments (some file) [file]
  | escaped {file : String} : file ≠ "" → FileArguments (some file) ["--", file]

/-- The arguments in front of the command, which may name a configuration file. -/
inductive ConfigArguments : Option String → List String → Prop
  | unnamed : ConfigArguments none []
  | attached {path : String} : path ≠ "" → ConfigArguments (some path) ["--config=" ++ path]
  | next {path : String} : path ≠ "" → Shape.of path = .plain path →
    ConfigArguments (some path) ["--config", path]

/-- Arguments for an upload to a bucket and a key. -/
inductive UploadArguments (config : Option String) (bucket key : String) (file : Option String) :
    List String → Prop
  | intro {before behind : List String} : ConfigArguments config before →
    FileArguments file behind → UploadArguments config bucket key file
      (before ++ "upload" :: ("--bucket=" ++ bucket) :: ("--key=" ++ key) :: behind)

variable {config file : Option String} {before behind : List String} {bucket key : String}

namespace Shape

theorem of_long {argument name value : String}
    (h : argument.toList = '-' :: '-' :: (name.toList ++ '=' :: value.toList))
    (hname : '=' ∉ name.toList) : Shape.of argument = .long name (some value) := by
  have hletters : ∀ c ∈ name.toList, decide (c ≠ '=') = true := by
    intro c hc
    exact decide_eq_true fun heq => hname (heq ▸ hc)
  have htake : (name.toList ++ '=' :: value.toList).takeWhile (· ≠ '=') = name.toList := by
    rw [List.takeWhile_append_of_pos hletters]
    simp
  have hdrop : (name.toList ++ '=' :: value.toList).dropWhile (· ≠ '=') = '=' :: value.toList := by
    rw [List.dropWhile_append_of_pos hletters]
    simp
  obtain ⟨c, cs, hcs⟩ : ∃ c cs, name.toList ++ '=' :: value.toList = c :: cs :=
    List.exists_cons_of_ne_nil (List.append_ne_nil_of_right_ne_nil _ (List.cons_ne_nil _ _))
  rw [hcs] at h htake hdrop
  unfold Shape.of
  simp only [h, htake, hdrop, String.ofList_toList]

theorem of_bucket (bucket : String) :
    Shape.of ("--bucket=" ++ bucket) = .long "bucket" (some bucket) :=
  of_long (by rw [String.toList_append]; rfl) (by decide)

theorem of_key (key : String) : Shape.of ("--key=" ++ key) = .long "key" (some key) :=
  of_long (by rw [String.toList_append]; rfl) (by decide)

theorem of_config (path : String) : Shape.of ("--config=" ++ path) = .long "config" (some path) :=
  of_long (by rw [String.toList_append]; rfl) (by decide)

end Shape

/-! ## Behind the command -/

section
variable {o o' : UploadOptions} {argument text value : String} {rest : List String}

theorem withFile_eq (hnone : o.file = none) (htext : text ≠ "") :
    o.withFile text = some { o with file := some text } := by
  simp [UploadOptions.withFile, setOnce, hnone, htext]

theorem parseUpload_nil : parseUpload config [] o = o.request config := by
  rw [parseUpload.eq_def]

theorem parseUpload_plain (hshape : Shape.of argument = .plain text)
    (hfile : o.withFile text = some o') :
    parseUpload config (argument :: rest) o = parseUpload config rest o' := by
  rw [parseUpload.eq_def]
  simp only [hshape, hfile]

theorem parseUpload_escape : parseUpload config ("--" :: rest) o = parseFiles config rest o := by
  have hshape : Shape.of "--" = .escape := by decide
  rw [parseUpload.eq_def]
  simp only [hshape]

theorem parseUpload_bucket (hnone : o.bucket = none) :
    parseUpload config (("--bucket=" ++ value) :: rest) o =
      parseUpload config rest { o with bucket := some value } := by
  rw [parseUpload.eq_def]
  simp [Shape.of_bucket, takeValue, setOnce, hnone]

theorem parseUpload_key (hnone : o.key = none) :
    parseUpload config (("--key=" ++ value) :: rest) o =
      parseUpload config rest { o with key := some value } := by
  rw [parseUpload.eq_def]
  simp [Shape.of_key, takeValue, setOnce, hnone]

end

theorem FileArguments.parse (h : FileArguments file behind) :
    parseUpload config behind ⟨some bucket, some key, none⟩ =
      .run config (.upload (some bucket) key file) := by
  cases h with
  | input => exact parseUpload_nil
  | plain hfile hshape =>
    rw [parseUpload_plain hshape (withFile_eq rfl hfile), parseUpload_nil]
    rfl
  | escaped hfile =>
    rw [parseUpload_escape, parseFiles, withFile_eq rfl hfile]
    rfl

/-! ## All arguments -/

theorem parseFrom_upload (h : FileArguments file behind) :
    parseFrom config ("upload" :: ("--bucket=" ++ bucket) :: ("--key=" ++ key) :: behind) =
      .run config (.upload (some bucket) key file) := by
  have hshape : Shape.of "upload" = .plain "upload" := by decide
  rw [parseFrom.eq_def]
  simp only [hshape]
  rw [parseCommand, if_pos rfl, parseUpload_bucket rfl, parseUpload_key rfl, h.parse]

theorem parseFrom_config {path : String} {rest : List String} (hpath : path ≠ "") :
    parseFrom none (("--config=" ++ path) :: rest) = parseFrom (some path) rest := by
  rw [parseFrom.eq_def]
  simp only [Shape.of_config]
  rw [parseFrom.withConfig.eq_def]
  simp [takeValue, setOnce, hpath]

theorem parseFrom_config_next {path : String} {rest : List String} (hpath : path ≠ "")
    (hshape : Shape.of path = .plain path) :
    parseFrom none ("--config" :: path :: rest) = parseFrom (some path) rest := by
  have hname : Shape.of "--config" = .long "config" none := by decide
  have htake : takeValue none (path :: rest) = some (path, rest) := by rw [takeValue, hshape]
  rw [parseFrom.eq_def]
  simp only [hname]
  rw [parseFrom.withConfig.eq_def]
  split
  · next hnone =>
    rw [htake] at hnone
    cases hnone
  · next hsome =>
    rw [htake] at hsome
    cases hsome
    simp [setOnce, hpath]

/-- What is asked for is read back, whatever the texts are. -/
theorem UploadArguments.parse {arguments : List String}
    (h : UploadArguments config bucket key file arguments) :
    parse arguments = .run config (.upload (some bucket) key file) := by
  obtain ⟨hconfig, hfile⟩ := h
  rw [CommandLine.parse]
  cases hconfig with
  | unnamed => exact parseFrom_upload hfile
  | attached hpath => exact (parseFrom_config hpath).trans (parseFrom_upload hfile)
  | next hpath hshape => exact (parseFrom_config_next hpath hshape).trans (parseFrom_upload hfile)

end ChunkedUpload.CommandLine
