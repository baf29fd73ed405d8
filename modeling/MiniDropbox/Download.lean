/-
A download: `cmd_download` against `handle_download`.

A `Download` fixes the server that takes the request, with a regular file at the
resolved path, and what the client holds of it. `opened` is what the two loops start
from when the handler has come to `file_send` and that has opened the file: the
`chunk_count` the client reads from the reply, and the start chunk. `opened_iff` says
when it comes that far.

The client holds `heldChunks` of the size, a float rounded to 24 bits and divided by
the chunk size: one chunk more than it has where the size is rounded up to the next
multiple (`heldChunks_eq`). The `chunk_count` is one chunk short where the size is
rounded down to a multiple (`chunkCount_eq`).
-/

import MiniDropbox.Client
import MiniDropbox.Edits
import MiniDropbox.Transfer.Ends
import MiniDropbox.Walks

namespace MiniDropbox

/-! ### The two roundings -/

/-- The float nearest to the size is the next multiple of the chunk size. -/
def RoundsUp (size : Nat) : Prop := 2 * (CHUNK_SIZE - size % CHUNK_SIZE) ≤ Rounding.ulp 24 size

/-- The float nearest to the size is the multiple of the chunk size below it. -/
def RoundsDown (size : Nat) : Prop :=
  0 < size % CHUNK_SIZE ∧ 2 * (size % CHUNK_SIZE) ≤ Rounding.ulp 24 size

instance (size : Nat) : Decidable (RoundsUp size) := by unfold RoundsUp; infer_instance

instance (size : Nat) : Decidable (RoundsDown size) := by unfold RoundsDown; infer_instance

/-- The spacing of floats of the sizes in question divides half a chunk. -/
theorem ulp_fine {size : Nat} (small : size ≤ 10 ^ 10) : 2 * Rounding.ulp 24 size ∣ CHUNK_SIZE :=
  @Rounding.two_mul_ulp_dvd 24 size 34 12 (Nat.lt_of_le_of_lt small (by decide)) (by decide)
    (by decide) (by decide)

theorem heldChunks_eq {size : Nat} (small : size ≤ 10 ^ 10) :
    heldChunks size = if RoundsUp size then size / CHUNK_SIZE + 1 else size / CHUNK_SIZE :=
  Rounding.nearest_div (by decide) (ulp_fine small)

/-- The number of chunks the bytes make up, and one less where the size is rounded down. -/
theorem chunkCount_eq {size : Nat} (small : size ≤ 10 ^ 10) :
    chunkCount size = if RoundsDown size then size / CHUNK_SIZE
      else (size + (CHUNK_SIZE - 1)) / CHUNK_SIZE := by
  have positive := Rounding.ulp_pos 24 size
  rw [chunkCount, Rounding.ceil_nearest_div (by decide) (ulp_fine small)]
  by_cases low : 2 * (size % CHUNK_SIZE) ≤ Rounding.ulp 24 size
  · by_cases rest : 0 < size % CHUNK_SIZE
    · rw [if_pos low, if_pos ⟨rest, low⟩]
    · rw [if_pos low, if_neg fun down => rest down.1]
      simp only [CHUNK_SIZE] at rest ⊢
      omega
  · rw [if_neg low, if_neg fun down => low down.2]
    simp only [CHUNK_SIZE] at low ⊢
    omega

/-- The chunks the client claims to hold are there unless the size is rounded up. -/
theorem heldChunks_le_iff {size : Nat} (small : size ≤ 10 ^ 10) :
    heldChunks size * CHUNK_SIZE ≤ size ↔ ¬ RoundsUp size := by
  rw [heldChunks_eq small]
  simp only [CHUNK_SIZE]
  split_ifs with up
  · simp only [up, not_true_eq_false, iff_false]
    omega
  · simp only [up, not_false_eq_true, iff_true]
    omega

/-- Up to `2 ^ 24` every size is a float. -/
theorem exact_of_le {size : Nat} (small : size ≤ 2 ^ 24) : ¬ RoundsUp size ∧ ¬ RoundsDown size := by
  unfold RoundsUp RoundsDown
  by_cases below : size < 2 ^ 24
  · have unit := Rounding.ulp_eq_one below (by decide)
    simp only [unit, CHUNK_SIZE]
    omega
  · obtain rfl : size = 2 ^ 24 := Nat.le_antisymm small (Nat.le_of_not_lt below)
    decide

/-! ### A download -/

/-- A download in the state that receives its request: `path` is what the requested name
resolves to, a regular file that the handler's `lstat` sees, and `held` the client's
local file. `readOk` and `lost` are the reads of the server's `file_send` and the
writes of the client's `file_recv`. -/
structure Download where
  libs : Externals
  server : Server
  addr : Nat
  user : User
  token : Token
  env : Env
  name : CStr
  path : CStr
  content : List Byte
  held : Option (List Byte)
  readOk : Nat → Bool
  lost : Nat → Nat
  record : server.uman.users[addr]? = some user
  fits : (cmdDownloadInfo name held).Fits
  resolved : getUserPath libs name token = some path
  regular : perform env.faults .infoLstat path (server.fs.lstat path) = .ok (.file content)
  content_le : content.length ≤ 10 ^ 10
  held_prefix : held.getD [] <+: content

namespace Download

variable (d : Download)

/-- What the client holds; an absent file is created empty. -/
def holds : List Byte := d.held.getD []

def prepared : DownloadPrepared :=
  downloadAccept d.libs d.env d.server d.addr d.user d.token (cmdDownloadInfo d.name d.held)
    ⟨[], [], .opened⟩

/-- The `chunk_count` the client reads from the reply, and the start chunk, when
`file_send` has opened a regular file. -/
def opened : Option (Nat × Nat) :=
  match d.prepared with
  | .ready server _ _ info start _ =>
      match perform d.env.faults .sendLstat info.filename (server.fs.lstat info.filename),
          perform d.env.faults .sendOpen info.filename (server.fs.openRead info.filename) with
      | .ok _, .ok (.file _) => some ((FileInfo.decode info.encode).chunkCount, start)
      | _, _ => none
  | _ => none

/-- The transfer that follows; the server closes the connection after it. -/
def transfer (count start : Nat) (small : start * CHUNK_SIZE < 2 ^ 63) : Transfer where
  libs := d.libs
  content := d.content
  count := count
  start := start
  readOk := d.readOk
  lost := d.lost
  hangup := true
  content_lt := Nat.lt_of_le_of_lt d.content_le (by decide)
  start_lt := small

/-- The system calls by which the handler and `file_send` look for the file succeed. -/
@[mk_iff] structure Found : Prop where
  exists' : d.env.faults .existsOpen d.path = none
  lstat : d.env.faults .sendLstat d.path = none
  opens : d.env.faults .sendOpen d.path = none

variable {d}

theorem holds_le : d.holds.length ≤ 10 ^ 10 :=
  Nat.le_trans d.held_prefix.length_le d.content_le

theorem requested_name : (cmdDownloadInfo d.name d.held).filename = d.name := by
  unfold cmdDownloadInfo
  cases d.held <;> rfl

/-- The chunk count of the request is that of what the client holds. -/
theorem claimed_eq : (cmdDownloadInfo d.name d.held).size = d.holds.length ∧
    (cmdDownloadInfo d.name d.held).chunkCount = heldChunks d.holds.length := by
  unfold cmdDownloadInfo holds
  cases d.held with
  | none => exact ⟨rfl, rfl⟩
  | some bytes => exact ⟨rfl, rfl⟩

theorem heldChunks_small : heldChunks d.holds.length < 2 ^ 31 := by
  have small := @holds_le d
  rw [heldChunks_eq small]
  simp only [CHUNK_SIZE]
  split_ifs <;> omega

theorem start_small : heldChunks d.holds.length * CHUNK_SIZE < 2 ^ 63 := by
  have small := @heldChunks_small d
  simp only [CHUNK_SIZE]
  omega

/-- The reply carries the path and the chunk count of the file, whether or not its checksum
could be taken. -/
theorem filled_eq {info : FileInfo} :
    (fileinfoFromFilename d.env.faults d.libs .infoLstat .infoOpen d.server.fs d.path info).2.filename = d.path ∧
      (fileinfoFromFilename d.env.faults d.libs .infoLstat .infoOpen d.server.fs d.path info).2.chunkCount =
        chunkCount d.content.length := by
  rw [fileinfoFromFilename, d.regular]
  dsimp only
  split
  · exact ⟨rfl, rfl⟩
  · exact ⟨rfl, rfl⟩

/-- With the existence check passed the handler sends the size of the file and starts at
the chunk claimed. -/
theorem prepared_ready (checked : d.env.faults .existsOpen d.path = none) :
    ∃ next place info sock, d.prepared = .ready next place d.path info (heldChunks d.holds.length) sock ∧
      info.filename = d.path ∧ info.chunkCount = chunkCount d.content.length ∧ next.fs = d.server.fs := by
  have opens := openRead_of_lstat (perform_ok d.regular)
  have there : fileExists d.env.faults d.server.fs d.path = 1 := by
    simp [fileExists, perform, checked, opens]
  obtain ⟨size, count⟩ := @claimed_eq d
  have start : (if d.holds.length > 0 then viaInt (heldChunks d.holds.length) else 0) =
      heldChunks d.holds.length := by
    split_ifs with some
    · exact viaInt_of_lt heldChunks_small
    · rw [Nat.eq_zero_of_not_pos some]
      rfl
  rw [prepared, downloadAccept, requested_name, d.resolved]
  simp only [there, size, count, start]
  obtain ⟨named, counted⟩ := @filled_eq d (cmdDownloadInfo d.name d.held)
  exact ⟨_, _, _, _, rfl, named, counted, rfl⟩

/-- The transfer starts with the file's chunk count at the chunk claimed, if the file is
found. -/
theorem opened_iff {count start : Nat} : d.opened = some (count, start) ↔
    d.Found ∧ count = chunkCount d.content.length ∧ start = heldChunks d.holds.length := by
  have found := perform_ok d.regular
  have opens := openRead_of_lstat found
  by_cases checked : d.env.faults .existsOpen d.path = none
  · obtain ⟨next, place, info, sock, ready, named, counted, same⟩ := prepared_ready checked
    have small : info.chunkCount < 2 ^ 64 := by
      have bound := d.content_le
      rw [counted, chunkCount_eq bound]
      simp only [CHUNK_SIZE]
      split_ifs <;> omega
    rw [opened, ready]
    simp only [named, same, found, opens, FileInfo.decode_encode_chunkCount small, counted]
    cases lstat : d.env.faults .sendLstat d.path with
    | some errno => simp [perform, lstat, found_iff]
    | none =>
        cases opening : d.env.faults .sendOpen d.path with
        | some errno => simp [perform, lstat, opening, found_iff]
        | none => simp [perform, lstat, opening, found_iff, checked, eq_comm]
  · have ended : d.opened = none := by
      obtain ⟨errno, fails⟩ := Option.ne_none_iff_exists'.mp checked
      have missing : fileExists d.env.faults d.server.fs d.path = 0 ∨
          fileExists d.env.faults d.server.fs d.path = -1 := by
        cases errno <;> simp [fileExists, perform, fails]
      rw [opened, prepared, downloadAccept, requested_name, d.resolved]
      rcases missing with zero | minus
      · simp [zero]
      · simp [minus]
    constructor
    · intro going
      cases ended.symm.trans going
    · rintro ⟨there, -⟩
      exact absurd there.exists' checked

end Download

end MiniDropbox
