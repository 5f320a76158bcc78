import StackNative.Assembly.Assemble
import StackNative.Bytecode.Container
import StackNative.Text.Path

/-!
# Sources

**Input.** A source file: its path, the name it goes by in messages, its bytes.
**Results.** The chunk in it.  A file with the extension of containers is read as
a container and verified; any other file is assembly text.
-/

namespace StackNative

open Bytecode (Chunk)

/-- The two forms of a source. -/
inductive SourceForm where
  | assembly
  | container
  deriving DecidableEq, Repr

/-- The form of the source at a path. -/
def SourceForm.ofPath (path : Text) : SourceForm :=
  if path.extension.foldsTo ".sbc" then .container else .assembly

/-- Why a source gives no chunk. -/
inductive SourceError where
  | assembly (e : Assembly.AssemblyError)
  | container (e : Bytecode.ContainerError)
  | unverified (e : Bytecode.VerifyError)
  deriving DecidableEq, Repr

/-- The text of an error in the source of a name; an empty name is left out. -/
def SourceError.message (name : Text) (e : SourceError) : Text :=
  let label : Text := if name.isEmpty then [] else name ++ ": "
  match e with
  | .assembly e => e.stage ++ ": " ++ label ++ e.faultsText
  | .container e => label ++ e.message
  | .unverified e => label ++ e.message

/-- The chunk in a source. -/
def SourceForm.compile (form : SourceForm) (bytes : Text) : Except SourceError Chunk :=
  match form with
  | .assembly =>
    match Assembly.assemble bytes with
    | .ok c => .ok c
    | .error e => .error (.assembly e)
  | .container =>
    match Chunk.unmarshal bytes with
    | .error e => .error (.container e)
    | .ok c =>
      match c.verify with
      | some e => .error (.unverified e)
      | none => .ok c

end StackNative
