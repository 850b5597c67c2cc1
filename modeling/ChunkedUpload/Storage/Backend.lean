import ChunkedUpload.Config.Basic
import ChunkedUpload.S3.Store
import ChunkedUpload.Storage.Directory

/-!
# The store that a configuration names

A configuration names a directory or a service; `Backend.openAt` opens the store for it.
-/

namespace ChunkedUpload

open Files (Tree)

/-- An open store. -/
inductive Backend
  | directory (store : Directory)
  | service (store : S3.Store)

namespace Backend

/-- The word for the kind of store. -/
def word : Backend → String
  | directory _ => "filesystem"
  | service _ => "s3"

/-- What a store is opened in: the files, the number of the next temporary name, and the service
with the way to it. -/
structure Surroundings where
  tree : Tree
  ticket : Nat := 0
  server : S3.Server := {}
  reachable : Bool := false

/-- Opens the store for valid settings. The tree is answered in any case. -/
def openAt (config : StorageConfig) (around : Surroundings) : Except StorageError Backend × Tree :=
  match config.validate, config with
  | .error e, _ => (.error (.config e.message), around.tree)
  | .ok (), .directory path =>
    let (store, tree) := Directory.openAt (Files.Path.ofText path) around.tree around.ticket
    (store.map directory, tree)
  | .ok (), .service settings =>
    ((S3.Client.new settings).map fun client =>
      service ⟨client, around.server, around.reachable⟩, around.tree)

end Backend

end ChunkedUpload
