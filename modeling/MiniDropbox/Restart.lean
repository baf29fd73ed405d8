/-
Restarts of the server.

What the server knows of its users when it starts it reads off the names in the storage directory. As
long as these are the names of users, a restart forgets exactly the users whose directory is gone
(`Refines.restart`), and the server answers its one-shot requests as a box does that forgets them
too, over any number of restarts (`survives_restarts`).
-/

import MiniDropbox.Box
import MiniDropbox.Startup

namespace MiniDropbox

open Lexical TreeStore

/-! ### The start of the server -/

/-- `uman_init`, on the storage directory as it is. -/
def load (uuid : UuidParse) (reads : List CStr → List StoredEntry) (fs : Fs) : Option Server :=
  (umanInit uuid ((fs.opendir STORAGE_DIR).toOption.map reads)).map fun uman => ⟨fs, uman⟩

/-- Mirrors `main`, up to the creation of the workers. -/
def start (uuid : UuidParse) (reads : List CStr → List StoredEntry) (fs : Fs) : Option Server :=
  match fs.mkdir STORAGE_DIR with
  | .error errno => if errno = .EEXIST then load uuid reads fs else none
  | .ok fs => load uuid reads fs

/-- `readdir` yields the entries in some order, with the directory itself and its parent. -/
def Yields (reads : List CStr → List StoredEntry) : Prop :=
  ∀ names, ((reads names).map StoredEntry.name).Perm (cstr "." :: cstr ".." :: names)

/-- `uuid_parse` reads what `uuid_unparse` writes. -/
def Parses (libs : Externals) (uuid : UuidParse) : Prop := ∀ t, uuid.parse (libs.uuidUnparse t) = some t

/-! ### Boxes whose directories belong to users -/

namespace Box

/-- Each name in the storage directory is that of a known user. -/
def Owned (libs : Externals) (box : Box) : Prop :=
  ∀ name, box.store.entry [name] ≠ none → ∃ t, box.known t ∧ name = libs.uuidUnparse t

/-- No directory is asked for beside the user's own. -/
def Straight (libs : Externals) (token : Token) : Ask → Prop
  | .mkdir (some raw) => ∀ top more, target libs token raw = some (top, more) → top = libs.uuidUnparse token
  | _ => True

/-- What a restart leaves: the users with a directory. -/
def restarted (libs : Externals) (box : Box) : Box :=
  { box with known := fun t => box.known t ∧ box.store.entry [libs.uuidUnparse t] ≠ none }

/-- Lives of a box, with a restart at the end of each: the answers, and the box at last. -/
noncomputable def live (libs : Externals) (box : Box) : List (List (Token × Ask)) → List Answer × Box
  | [] => ([], box)
  | asks :: later =>
      let (box, answers) := box.serveAll libs asks
      let (answers', box) := (box.restarted libs).live libs later
      (answers ++ answers', box)

variable {libs : Externals} {box : Box} {token : Token} {ask : Ask} {name top : CStr} {more : List CStr}

/-- Along a way below a directory, only that directory can be new beside the others. -/
theorem entry_of_makeWay {store : Store CStr (List Byte)} {slashed : Prop} [Decidable slashed]
    (there : (makeWay store top more slashed).1.entry [name] ≠ none) : store.entry [name] ≠ none ∨ name = top := by
  have behind : (makeAll ShortName store [top] more).1.entry [name] ≠ none → store.entry [name] ≠ none ∨ name = top := by
    intro made
    rcases entry_of_makeAll made with old | ⟨names, -, -, same⟩
    · exact .inl old
    · exact .inr (List.cons.inj same).1
  unfold makeWay at there
  cases outcome : makeAll ShortName store [top] more with
  | mk store' whole =>
      rw [outcome] at there behind
      cases whole with
      | false => exact behind there
      | true =>
          dsimp only at there
          split_ifs at there
          · rcases entry_of_makeAll there with old | ⟨names, -, along, same⟩
            · exact behind old
            · have whole : [name] <+: top :: more := by
                have front : (top :: more).take more.length ++ names <+: (top :: more).take more.length ++ (top :: more).drop more.length :=
                  (List.prefix_append_right_inj _).mpr along
                rwa [← same, List.take_append_drop] at front
              exact .inr (List.cons_prefix_cons.mp whole).1
          · exact behind there

theorem entry_of_takeAway {store : Store CStr (List Byte)} {path q : List CStr} {slashed : Prop} [Decidable slashed]
    (there : (takeAway store path slashed).1.entry q ≠ none) : store.entry q ≠ none := by
  unfold takeAway at there
  cases found : store.entry path with
  | none =>
      rw [found] at there
      exact there
  | some entry =>
      rw [found] at there
      cases entry with
      | dir => exact entry_of_remove there
      | leaf bytes =>
          dsimp only at there
          split_ifs at there
          · exact there
          · exact entry_of_remove there

/-- No question makes a directory that is not a user's, if none is asked for. -/
theorem Owned.serve (owned : Owned libs box) (straight : Straight libs token ask) : Owned libs (box.serve libs token ask).1 := by
  intro name there
  rcases serve_cases libs box token ask with ⟨-, after⟩ | after | ⟨raw, top, more, rfl, known, aimed, after⟩ |
    ⟨raw, top, more, -, -, -, after⟩
  · rw [after] at there ⊢
    rcases entry_of_make there with old | same
    · obtain ⟨t, known, rfl⟩ := owned name old
      exact ⟨t, .inl known, rfl⟩
    · exact ⟨token, .inr rfl, (List.cons.inj same).1⟩
  · rw [after] at there ⊢
    exact owned name there
  · rw [after] at there ⊢
    rcases entry_of_makeWay there with old | same
    · exact owned name old
    · exact ⟨token, known, same.trans (straight top more aimed)⟩
  · rw [after] at there ⊢
    exact owned name (entry_of_takeAway there)

theorem Owned.serveAll {asks : List (Token × Ask)} (owned : Owned libs box) (straight : ∀ q ∈ asks, Straight libs q.1 q.2) :
    Owned libs (box.serveAll libs asks).1 := by
  induction asks generalizing box with
  | nil => exact owned
  | cons q asks ih =>
      exact ih (owned.serve (straight q List.mem_cons_self)) fun q' later => straight q' (List.mem_cons_of_mem _ later)

theorem Owned.restarted (owned : Owned libs box) : Owned libs (box.restarted libs) := by
  intro name there
  obtain ⟨t, known, rfl⟩ := owned name there
  exact ⟨t, ⟨known, there⟩, rfl⟩

end Box

/-! ### One restart -/

section Restarts

variable {libs : Externals} {server : Server} {box : Box} {uuid : UuidParse} {reads : List CStr → List StoredEntry} {t : Token}

/-- The storage directory is found, and its entries are those of the store. -/
theorem Mirrors.stored {fs : Fs} {store : Store CStr (List Byte)} (mirrors : Mirrors fs store) :
    fs.mkdir STORAGE_DIR = .error .EEXIST ∧ fs.opendir STORAGE_DIR = .ok (fs.names storagePlace) ∧
      ∀ name, name ∈ fs.names storagePlace ↔ store.entry [name] ≠ none := by
  have spelled : STORAGE_DIR = joined slash storagePlace := by decide
  have there : fs.get? storagePlace = some .dir := mirrors.housed.above storagePlace List.prefix_rfl
  have resolved : fs.resolve false STORAGE_DIR = .ok storagePlace := by
    rw [spelled]
    exact (mirrors.tree.steady mirrors.genuine (by decide) (by rw [there]; exact Option.some_ne_none _) (by decide)).1
  have trimmed : trimSlashes STORAGE_DIR = STORAGE_DIR := by decide
  have leads : LeadsTo fs storagePlace storagePlace := (mirrors.leadsTo_iff (List.forall_mem_nil _)).mpr ⟨rfl, store.root⟩ |>.1
  have followed : fs.resolve true STORAGE_DIR = .ok storagePlace :=
    resolve_of_leadsTo mirrors.tree.short (fun n among => (proper_of_mem_storagePlace among).toIsName) (by decide) leads
  refine ⟨?_, opendir_of_directory followed there, fun name => ?_⟩
  · rw [mkdir_of_resolve (by rw [trimmed]; exact resolved), there]
  · rw [Genuine.mem_names_iff, Option.isSome_iff_ne_none, Ne, mirrors.none_iff]

/-- The tokens that are loaded. -/
theorem mem_loaded_stored {names : List CStr} {store : Store CStr (List Byte)}
    (yields : Yields reads) (parses : Parses libs uuid) (stored : ∀ name, name ∈ names ↔ store.entry [name] ≠ none)
    (owned : ∀ name, store.entry [name] ≠ none → ∃ t, name = libs.uuidUnparse t) :
    t ∈ loaded uuid (reads names) ↔ store.entry [libs.uuidUnparse t] ≠ none := by
  have listed : ∀ name, (∃ entry ∈ reads names, entry.name = name) ↔ name = cstr "." ∨ name = cstr ".." ∨ name ∈ names := by
    intro name
    rw [← List.mem_map, (yields names).mem_iff, List.mem_cons, List.mem_cons]
  have none_rejected : ∀ entry, entry ∉ rejected uuid (reads names) := by
    intro entry among
    obtain ⟨mem, notDots, refused⟩ := mem_rejected.mp among
    rcases (listed entry.name).mp ⟨entry, mem, rfl⟩ with here | above | inside
    · exact notDots (.inl here)
    · exact notDots (.inr above)
    · obtain ⟨u, name⟩ := owned _ ((stored _).mp inside)
      rw [name, parses u] at refused
      cases refused
  rw [mem_loaded]
  constructor
  · rintro (⟨entry, mem, parsed⟩ | ⟨entry, among, -⟩)
    · have long := uuid.length_parse _ _ parsed
      rcases (listed entry.name).mp ⟨entry, mem, rfl⟩ with here | above | inside
      · rw [here] at long
        cases long
      · rw [above] at long
        cases long
      · have there := (stored _).mp inside
        obtain ⟨u, name⟩ := owned _ there
        rw [name, parses u] at parsed
        cases parsed
        rwa [name] at there
    · exact absurd among (none_rejected entry)
  · intro there
    obtain ⟨entry, mem, name⟩ := (listed _).mpr (.inr (.inr ((stored _).mpr there)))
    exact .inl ⟨entry, mem, by rw [name, parses]⟩

/-- A restart forgets the users whose directory is gone, and nothing else of what the box says. -/
theorem Refines.restart (refines : Refines server box) (owned : Box.Owned libs box) (yields : Yields reads)
    (parses : Parses libs uuid) :
    ∃ next, start uuid reads server.fs = some next ∧ next.fs = server.fs ∧ Refines next (box.restarted libs) := by
  obtain ⟨there, opened, stored⟩ := refines.mirrors.stored
  obtain ⟨uman, registered, -, -⟩ := umanInit_loaded uuid (reads (server.fs.names storagePlace))
  have registry : Registry uman (loaded uuid (reads (server.fs.names storagePlace))) := by
    apply registry_of_registerAll
    rw [← umanLoad_eq]
    exact registered
  have named : ∀ name, box.store.entry [name] ≠ none → ∃ t, name = libs.uuidUnparse t := by
    intro name entry
    obtain ⟨t, -, rfl⟩ := owned name entry
    exact ⟨t, rfl⟩
  refine ⟨⟨server.fs, uman⟩, ?_, rfl, refines.mirrors, _, registry, fun t => ?_⟩
  · rw [start, there]
    change load uuid reads server.fs = _
    rw [load, opened]
    change (umanInit uuid (some (reads (server.fs.names storagePlace)))).map _ = _
    rw [registered, Option.map_some]
  · rw [mem_loaded_stored yields parses stored named]
    constructor
    · rintro ⟨-, entry⟩
      exact entry
    · intro entry
      obtain ⟨u, known, same⟩ := owned _ entry
      cases libs.uuidUnparse_injective same
      exact ⟨known, entry⟩

end Restarts

/-! ### Lives of the server -/

section Lives

variable {libs : Externals} {server : Server} {box : Box} {uuid : UuidParse} {reads : List CStr → List StoredEntry}

/-- Runs of the server, with a restart at the end of each: what the clients are told, and the server
at last. -/
def live (libs : Externals) (uuid : UuidParse) (reads : List CStr → List StoredEntry) (server : Server) :
    List (List Request) → Option (List Answer × Server)
  | [] => some ([], server)
  | rs :: later =>
      (start uuid reads (runState libs server rs).fs).bind fun next =>
        (live libs uuid reads next later).map fun told => (answers libs server rs ++ told.1, told.2)

/-- The clients of a server that is restarted again and again are answered as by a box that forgets
the users without a directory. -/
theorem survives_restarts {lives : List (List Request)} (refines : Refines server box) (owned : Box.Owned libs box)
    (yields : Yields reads) (parses : Parses libs uuid) (plain : ∀ rs ∈ lives, ∀ r ∈ rs, Plain libs r)
    (straight : ∀ rs ∈ lives, ∀ q ∈ questions rs, Box.Straight libs q.1 q.2) :
    ∃ last, live libs uuid reads server lives = some ((box.live libs (lives.map questions)).1, last) ∧
      Refines last (box.live libs (lives.map questions)).2 := by
  induction lives generalizing server box with
  | nil => exact ⟨server, rfl, refines⟩
  | cons rs lives ih =>
      obtain ⟨told, reached⟩ := refines.serveAll (plain rs List.mem_cons_self)
      have kept := owned.serveAll (straight rs List.mem_cons_self)
      obtain ⟨next, started, -, again⟩ := reached.restart kept yields parses
      obtain ⟨last, later, after⟩ := ih again kept.restarted (fun rs' among => plain rs' (List.mem_cons_of_mem _ among))
        fun rs' among => straight rs' (List.mem_cons_of_mem _ among)
      refine ⟨last, ?_, after⟩
      rw [live, started, Option.bind_some, later, told]
      rfl

end Lives

/-! ### Somebody takes his own directory away and is forgotten -/

def forgetful : List (List Request) :=
  [[request .authReq someToken [] [], request .removeReq someToken (cstr "." ++ [0]) [],
      request .mkdirReq someToken (cstr "a" ++ [0]) []],
    [request .mkdirReq someToken (cstr "a" ++ [0]) [], request .authReq someToken [] []]]

/-- `readdir` with a local token of zeroes. -/
def zeroed (names : List CStr) : List StoredEntry := (cstr "." :: cstr ".." :: names).map fun name => ⟨name, Token.null⟩

theorem zeroed_yields : Yields zeroed := by
  intro names
  rw [zeroed, List.map_map]
  exact .of_eq (List.map_id _)

theorem survives_restarts_forgetful :
    (∃ last, live libraries uuidParse zeroed (boot [] []) forgetful =
        some ((Box.empty.live libraries (forgetful.map questions)).1, last) ∧
      Refines last (Box.empty.live libraries (forgetful.map questions)).2) ∧
    (live libraries uuidParse zeroed (boot [] []) forgetful).map Prod.fst = some [.done, .done, .refused, .unknown, .done] := by
  have asked : ∀ rs ∈ forgetful, ∀ r ∈ rs, r.ask.isSome ∧ r.raw.all (·.length ≤ 3) = true := by decide
  have calm : ∀ rs ∈ forgetful, ∀ r ∈ rs, r.env = default := by
    simp only [forgetful, List.forall_mem_cons]
    exact ⟨⟨rfl, rfl, rfl, List.forall_mem_nil _⟩, ⟨rfl, rfl, List.forall_mem_nil _⟩, List.forall_mem_nil _⟩
  have aimed : Box.target libraries someToken (cstr "a") = some (libraries.uuidUnparse someToken, [cstr "a"]) := by decide
  have asks : ∀ rs ∈ forgetful, ∀ q ∈ questions rs, q.1 = someToken ∧
      (q.2 = .register ∨ q.2 = .remove (some (cstr ".")) ∨ q.2 = .mkdir (some (cstr "a"))) := by decide
  have straight : ∀ rs ∈ forgetful, ∀ q ∈ questions rs, Box.Straight libraries q.1 q.2 := by
    intro rs life q among
    obtain ⟨mine, register | remove | mkdir⟩ := asks rs life q among
    · rw [register]
      trivial
    · rw [remove]
      trivial
    · rw [mine, mkdir]
      intro top more target
      cases aimed.symm.trans target
      rfl
  refine ⟨survives_restarts (refines_boot (boot_bare_tree []) (boot_bare_genuine [])) ?_ zeroed_yields parse_unparse
    (fun rs life r among => plain_of_short (calm rs life r among) (asked rs life r among).1 (asked rs life r among).2) straight, ?_⟩
  · exact fun name there => absurd rfl there
  · decide

end MiniDropbox
