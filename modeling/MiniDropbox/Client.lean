/-
The client's part of a transfer (`client.c`): what `cmd_upload` and `cmd_download`
put into the `FileInfo` of a request, and how `cmd_upload` reads the resume point
of the reply.

`cmd_download` asks `lstat` for the local file; `none` stands for one that is
absent, and what it holds otherwise is what the size is taken from.
-/

import MiniDropbox.Server

namespace MiniDropbox

/-- What `fileinfo_from_filename` fills in for a regular file, the first thing
`cmd_upload` does. -/
def cmdUploadInfo (libs : Externals) (filename : CStr) (content : List Byte) : FileInfo :=
  ⟨content.length, chunkCount content.length, libs.checksum content, filename⟩

/-- `(size_t)(*msg.payload)`, of which `*msg.payload` is one byte. -/
def cmdUploadStart (payload : List Byte) : Nat := (payload.getD 0 0).toNat

/-- The client starts at the resume point modulo 256. -/
theorem cmdUploadStart_encode (seq : Nat) : cmdUploadStart (LittleEndian.encode 8 seq) = seq % 256 :=
  LittleEndian.getD_encode_zero 7 seq

/-- The start lies far below the largest offset. -/
theorem cmdUploadStart_lt (seq : Nat) :
    cmdUploadStart (LittleEndian.encode 8 seq) * CHUNK_SIZE < 2 ^ 63 := by
  rw [cmdUploadStart_encode]
  simp only [CHUNK_SIZE]
  omega

/-- `floor((float)size / CHUNK_SIZE)` -/
def heldChunks (size : Nat) : Nat := Rounding.nearest 24 size / CHUNK_SIZE

/-- What `cmd_download` sends with its request. -/
def cmdDownloadInfo (filename : CStr) (held : Option (List Byte)) : FileInfo :=
  match held with
  | none => { FileInfo.zero with filename := filename }
  | some bytes =>
      { FileInfo.zero with
        filename := filename, size := bytes.length, chunkCount := heldChunks bytes.length }

end MiniDropbox
