/-
The descriptors of the server process.

`Descriptors` is the process's table with the paths given to `open` and `opendir` so
far. The functions here follow those of the sources once more, for what they open and
close: `file_exists` and `file_checksum` close what they open, `file_send`,
`file_recv`, `handle_list` and `rm_r` do not. `Request.descriptors` is the table after
a message has been handled, the closing of its own socket included.
-/

import MiniDropbox.Lib.Handles
import MiniDropbox.Server

namespace MiniDropbox

open Handles

/-- The open descriptors, and the paths there have been attempts to open. -/
structure Descriptors where
  table : Table
  asked : List CStr
  deriving DecidableEq

namespace Descriptors

/-- An `open` or `opendir` that fails. -/
def refuse (d : Descriptors) (path : CStr) : Descriptors := { d with asked := d.asked ++ [path] }

/-- An `open` or `opendir` that succeeds; the new descriptor is at the head of the table. -/
def opened (d : Descriptors) (path : CStr) : Descriptors := ⟨acquire d.table, d.asked ++ [path]⟩

def close (d : Descriptors) (fd : Nat) : Descriptors := { d with table := release d.table fd }

/-- Opened and closed again. -/
@[simp] theorem close_opened (d : Descriptors) (path : CStr) :
    (d.opened path).close (lowest d.table) = d.refuse path := by
  simp [opened, close, refuse]

@[simp] theorem table_refuse (d : Descriptors) (path : CStr) : (d.refuse path).table = d.table := rfl

@[simp] theorem table_opened (d : Descriptors) (path : CStr) :
    (d.opened path).table = lowest d.table :: d.table := rfl

@[simp] theorem table_close (d : Descriptors) (fd : Nat) :
    (d.close fd).table = release d.table fd := rfl

end Descriptors

/-! ### The functions that open files -/

section Calls

variable (faults : Faults) (libs : Externals)

/-- The descriptors of `file_exists`. -/
def fileExistsFds (fs : Fs) (filename : CStr) (d : Descriptors) : Descriptors :=
  match perform faults .existsOpen filename (fs.openRead filename) with
  | .error _ => d.refuse filename
  | .ok _ => (d.opened filename).close (lowest d.table)

/-- The descriptors of `file_checksum`. -/
def fileChecksumFds (site : Site) (fs : Fs) (filename : CStr) (d : Descriptors) : Descriptors :=
  match perform faults site filename (fs.openRead filename) with
  | .error _ => d.refuse filename
  | .ok _ => (d.opened filename).close (lowest d.table)

/-- The descriptors of `fileinfo_from_filename`. -/
def fileinfoFromFilenameFds (lstatSite openSite : Site) (fs : Fs) (filename : CStr) (d : Descriptors) :
    Descriptors :=
  match perform faults lstatSite filename (fs.lstat filename) with
  | .ok (.file _) => fileChecksumFds faults openSite fs filename d
  | _ => d

/-- The descriptors of `rm_r`, whose recursive calls meet the tree as the earlier ones
have left it. -/
def rmRFds : Nat → Fs → CStr → Descriptors → Descriptors
  | 0, _, _, d => d
  | fuel + 1, fs, path, d =>
      match perform faults .rmLstat path (fs.lstat path) with
      | .ok .dir =>
          match perform faults .rmOpendir path (fs.opendir path) with
          | .error _ => d.refuse path
          | .ok names =>
              (names.foldl (fun x name =>
                let filepath := snprintf PATH_MAX (path ++ slash :: name)
                ((rmR faults fuel x.1 filepath).1, rmRFds fuel x.1 filepath x.2)) (fs, d.opened path)).2
      | _ => d

/-- The descriptors of `file_recv`. -/
def fileRecvFds (fs : Fs) (filename : CStr) (d : Descriptors) : Descriptors :=
  match perform faults .recvOpen filename (fs.openCreate filename) with
  | .error _ => d.refuse filename
  | .ok _ => d.opened filename

/-- The descriptors of `file_send`. -/
def fileSendFds (fs : Fs) (filename : CStr) (d : Descriptors) : Descriptors :=
  let d := fileinfoFromFilenameFds faults .sendLstat .sendInfoOpen fs filename d
  match perform faults .sendLstat filename (fs.lstat filename) with
  | .error _ => d
  | .ok _ =>
      match perform faults .sendOpen filename (fs.openRead filename) with
      | .error _ => d.refuse filename
      | .ok _ => d.opened filename

end Calls

/-! ### Handlers -/

section Handlers

variable (libs : Externals) (env : Env)

/-- The descriptors of `handle_remove`. -/
def handleRemoveFds (server : Server) (user : Option Nat) (hdr : MessageHdr)
    (payload : Option (List Byte)) (d : Descriptors) : Descriptors :=
  match user, payload with
  | some _, some payload =>
      match getUserPath libs (cString (payload ++ env.tail)) hdr.token with
      | none => d
      | some filepath =>
          let d := fileinfoFromFilenameFds env.faults .infoLstat .infoOpen server.fs filepath d
          let ret := (fileinfoFromFilename env.faults libs .infoLstat .infoOpen server.fs filepath
            FileInfo.zero).1
          if ret < 0 ∧ ret ≠ -2 then d else rmRFds env.faults server.fs.depth server.fs filepath d
  | _, _ => d

/-- The descriptors of `handle_upload`. -/
def handleUploadFds (server : Server) (user : Option Nat) (hdr : MessageHdr) (sock : Sock)
    (d : Descriptors) : Descriptors :=
  match uploadPrepare libs env server user hdr sock with
  | .ready server _ info _ _ => fileRecvFds env.faults server.fs info.filename d
  | _ => d

/-- The descriptors of `handle_download`, for the `FileInfo` received. -/
def downloadFds (server : Server) (token : Token) (info : FileInfo) (d : Descriptors) : Descriptors :=
  match getUserPath libs info.filename token with
  | none => d
  | some filename =>
      let d := fileExistsFds env.faults server.fs filename d
      if fileExists env.faults server.fs filename = 1 then
        let d := fileinfoFromFilenameFds env.faults .infoLstat .infoOpen server.fs filename d
        let filled := (fileinfoFromFilename env.faults libs .infoLstat .infoOpen server.fs filename
          info).2
        fileSendFds env.faults server.fs filled.filename d
      else d

def handleDownloadFds (server : Server) (user : Option Nat) (hdr : MessageHdr) (sock : Sock)
    (d : Descriptors) : Descriptors :=
  match user, msgRecvPayload sock hdr.length sizeofFileInfo with
  | some _, .ok payload _ =>
      downloadFds libs env server hdr.token (FileInfo.decode (payload ++ env.tail)) d
  | _, _ => d

/-- The descriptors of one entry of a listing. -/
def listEntryFds (fs : Fs) (path : CStr) (place : Place) (d : Descriptors) (name : CStr) :
    Descriptors :=
  match fs.get? (place ++ [name]) with
  | some (.file _) => fileinfoFromFilenameFds env.faults .infoLstat .infoOpen fs
      (snprintf PATH_MAX (path ++ slash :: name)) d
  | _ => d

/-- The descriptors of `handle_list`. -/
def handleListFds (server : Server) (user : Option Nat) (hdr : MessageHdr) (sock : Sock)
    (d : Descriptors) : Descriptors :=
  match user, msgRecvPayload sock hdr.length PATH_MAX with
  | some _, .ok payload _ =>
      match getUserPath libs (cString (payload ++ env.tail)) hdr.token with
      | none => d
      | some path =>
          match perform env.faults .listOpendir path (server.fs.opendir path) with
          | .error _ => d.refuse path
          | .ok names =>
              let place := (server.fs.resolve true path).toOption.getD []
              names.foldl (listEntryFds env server.fs path place) (d.opened path)
  | _, _ => d

/-- The descriptors of the handler of an accepted message. -/
def handlerFds (server : Server) (user : Option Nat) (hdr : MessageHdr) (type : MessageType)
    (sock : Sock) (d : Descriptors) : Descriptors :=
  match type with
  | .uploadReq => handleUploadFds libs env server user hdr sock d
  | .downloadReq => handleDownloadFds libs env server user hdr sock d
  | .listReq => handleListFds libs env server user hdr sock d
  | .removeReq =>
      handleRemoveFds libs env server user hdr (recvOneshot sock hdr.length (payloadLimit type user)).1 d
  | _ => d

end Handlers

/-- The descriptors after a message on the socket `own`: what its handler leaves, and the
socket closed when the connection is. -/
def Request.descriptors (libs : Externals) (server : Server) (own : Nat) (r : Request)
    (d : Descriptors) : Descriptors :=
  let d := match dispatch r.hdr with
    | .accept type =>
        match umanGetUser server.uman r.hdr.token with
        | none => d
        | some user => handlerFds libs r.env server user r.hdr type r.sock d
    | _ => d
  if (r.serve libs server).status = .closed then d.close own else d

end MiniDropbox
