/-
Walks of the kernel as relations.

`Walks` is a walk of `Fs.walk` that arrives, step by step: `walks_of_walk` says what each step
can have been, and `Walks.walk` that such steps are a walk. `Leads` is the same without the
bounds: where the names of a path lead from a place, and how many links are followed on the
way. `Leads.walks` and `leads_of_walk` say that with the steps the kernel has in the model the
two agree. `Leads` splits at a name (`Leads.split`) and holds on in a tree to which something
has been added (`Leads.kept`), which a bounded walk does not show. `resolve_name_iff` says in
these terms where a path is resolved to that ends in a name.
-/

import MiniDropbox.Normalize
import MiniDropbox.Storage

namespace MiniDropbox

open Lexical

/-! ### Walks that arrive -/

/-- The steps of a walk that comes to a place, with the fuel and the links it may still use. -/
inductive Walks (fs : Fs) (follow : Bool) : Nat → Nat → Place → List CStr → Place → Prop
  | arrived {fuel links : Nat} {p : Place} : Walks fs follow (fuel + 1) links p [] p
  | here {fuel links : Nat} {p q : Place} {rest : List CStr} : fs.get? p = some .dir →
      Walks fs follow fuel links p rest q → Walks fs follow (fuel + 1) links p ([dot] :: rest) q
  | up {fuel links : Nat} {p q : Place} {rest : List CStr} : fs.get? p = some .dir →
      Walks fs follow fuel links p.dropLast rest q → Walks fs follow (fuel + 1) links p ([dot, dot] :: rest) q
  | missing {fuel links : Nat} {p : Place} {name : CStr} : fs.get? p = some .dir → name ≠ [dot] → name ≠ [dot, dot] →
      name.length ≤ NAME_MAX → fs.get? (p ++ [name]) = none → Walks fs follow (fuel + 1) links p [name] (p ++ [name])
  | down {fuel links : Nat} {p q : Place} {name : CStr} {rest : List CStr} {node : Node} : fs.get? p = some .dir →
      name ≠ [dot] → name ≠ [dot, dot] → name.length ≤ NAME_MAX → fs.get? (p ++ [name]) = some node →
      (∀ target, node ≠ .link target) → Walks fs follow fuel links (p ++ [name]) rest q →
      Walks fs follow (fuel + 1) links p (name :: rest) q
  | last {fuel links : Nat} {p : Place} {name target : CStr} : fs.get? p = some .dir → name ≠ [dot] → name ≠ [dot, dot] →
      name.length ≤ NAME_MAX → fs.get? (p ++ [name]) = some (.link target) → follow = false →
      Walks fs follow (fuel + 1) links p [name] (p ++ [name])
  | link {fuel links : Nat} {p q : Place} {name target : CStr} {rest : List CStr} : fs.get? p = some .dir →
      name ≠ [dot] → name ≠ [dot, dot] → name.length ≤ NAME_MAX → fs.get? (p ++ [name]) = some (.link target) →
      (rest ≠ [] ∨ follow = true) →
      Walks fs follow fuel links (if target.head? = some slash then [] else p) (components target ++ rest) q →
      Walks fs follow (fuel + 1) (links + 1) p (name :: rest) q

section Walks

variable {fs : Fs} {follow : Bool} {fuel links : Nat} {p q : Place} {names : List CStr}

theorem walks_of_walk (walked : fs.walk follow fuel links p names = .ok q) : Walks fs follow fuel links p names q := by
  induction fuel generalizing links p names with
  | zero => cases walked
  | succ fuel ih =>
      cases names with
      | nil =>
          rw [Fs.walk] at walked
          cases walked
          exact .arrived
      | cons name rest =>
          rw [Fs.walk] at walked
          cases here : fs.get? p with
          | none => rw [here] at walked; cases walked
          | some node =>
              rw [here] at walked
              cases node with
              | file bytes => cases walked
              | link target => cases walked
              | dir =>
                  dsimp only at walked
                  by_cases stays : name = [dot]
                  · rw [if_pos stays] at walked
                    rw [stays]
                    exact .here here (ih walked)
                  rw [if_neg stays] at walked
                  by_cases up : name = [dot, dot]
                  · rw [if_pos up] at walked
                    rw [up]
                    exact .up here (ih walked)
                  rw [if_neg up] at walked
                  by_cases long : name.length > NAME_MAX
                  · rw [if_pos long] at walked
                    cases walked
                  rw [if_neg long] at walked
                  have limit := Nat.le_of_not_lt long
                  cases there : fs.get? (p ++ [name]) with
                  | none =>
                      rw [there] at walked
                      dsimp only at walked
                      split_ifs at walked with last
                      cases walked
                      rw [last]
                      exact .missing here stays up limit there
                  | some node =>
                      rw [there] at walked
                      cases node with
                      | file bytes => exact .down here stays up limit there (fun _ link => by cases link) (ih walked)
                      | dir => exact .down here stays up limit there (fun _ link => by cases link) (ih walked)
                      | link target =>
                          dsimp only at walked
                          by_cases last : rest = [] ∧ ¬ follow = true
                          · rw [if_pos last] at walked
                            cases walked
                            rw [last.1]
                            exact .last here stays up limit there (Bool.eq_false_iff.mpr last.2)
                          rw [if_neg last] at walked
                          by_cases spent : links = 0
                          · rw [if_pos spent] at walked
                            cases walked
                          rw [if_neg spent] at walked
                          obtain ⟨left, rfl⟩ := Nat.exists_eq_succ_of_ne_zero spent
                          refine .link here stays up limit there ?_ (ih walked)
                          by_cases ended : rest = []
                          · exact .inr (Decidable.not_not.mp fun unfollowed => last ⟨ended, unfollowed⟩)
                          · exact .inl ended

theorem Walks.walk (walks : Walks fs follow fuel links p names q) : fs.walk follow fuel links p names = .ok q := by
  induction walks with
  | arrived => rfl
  | here dir _ ih =>
      rw [Fs.walk, dir]
      exact ih
  | up dir _ ih =>
      rw [Fs.walk, dir]
      exact ih
  | missing dir notDot notDots limit there =>
      rw [Fs.walk, dir]
      dsimp only
      rw [if_neg notDot, if_neg notDots, if_neg (Nat.not_lt_of_le limit), there]
      rfl
  | @down _ _ _ _ _ _ node dir notDot notDots limit there plain _ ih =>
      rw [Fs.walk, dir]
      dsimp only
      rw [if_neg notDot, if_neg notDots, if_neg (Nat.not_lt_of_le limit), there]
      cases node with
      | dir => exact ih
      | file bytes => exact ih
      | link target => exact absurd rfl (plain target)
  | last dir notDot notDots limit there unfollowed =>
      rw [Fs.walk, dir]
      dsimp only
      rw [if_neg notDot, if_neg notDots, if_neg (Nat.not_lt_of_le limit), there, unfollowed]
      rfl
  | link dir notDot notDots limit there goes _ ih =>
      rw [Fs.walk, dir]
      dsimp only
      rw [if_neg notDot, if_neg notDots, if_neg (Nat.not_lt_of_le limit), there]
      dsimp only
      rw [if_neg fun last => goes.elim (fun more => more last.1) last.2, if_neg (Nat.succ_ne_zero _), Nat.succ_sub_one]
      exact ih

/-- A walk that comes to a node other than a link without following a last link comes
there too when it would follow one. -/
theorem Walks.follows {node : Node} (walks : Walks fs false fuel links p names q) (found : fs.get? q = some node)
    (plain : ∀ target, node ≠ .link target) : Walks fs true fuel links p names q := by
  induction walks with
  | arrived => exact .arrived
  | here dir _ ih => exact .here dir (ih found)
  | up dir _ ih => exact .up dir (ih found)
  | missing dir notDot notDots limit there => exact .missing dir notDot notDots limit there
  | down dir notDot notDots limit there other _ ih => exact .down dir notDot notDots limit there other (ih found)
  | last dir notDot notDots limit there => exact absurd (Option.some.inj (found.symm.trans there)) (plain _)
  | link dir notDot notDots limit there goes _ ih => exact .link dir notDot notDots limit there (.inr rfl) (ih found)

end Walks

/-! ### Where names lead -/

/-- Names lead from a place to a place, and so many links are followed. -/
inductive Leads (fs : Fs) : Place → List CStr → Nat → Place → Prop
  | done {p : Place} : Leads fs p [] 0 p
  | here {p q : Place} {names : List CStr} {k : Nat} : fs.get? p = some .dir → Leads fs p names k q →
      Leads fs p ([dot] :: names) k q
  | up {p q : Place} {names : List CStr} {k : Nat} : fs.get? p = some .dir → Leads fs p.dropLast names k q →
      Leads fs p ([dot, dot] :: names) k q
  | down {p q : Place} {name : CStr} {names : List CStr} {node : Node} {k : Nat} : fs.get? p = some .dir →
      name ≠ [dot] → name ≠ [dot, dot] → name.length ≤ NAME_MAX → fs.get? (p ++ [name]) = some node →
      (∀ target, node ≠ .link target) → Leads fs (p ++ [name]) names k q → Leads fs p (name :: names) k q
  | follow {p q : Place} {name target : CStr} {names : List CStr} {k : Nat} : fs.get? p = some .dir →
      name ≠ [dot] → name ≠ [dot, dot] → name.length ≤ NAME_MAX → fs.get? (p ++ [name]) = some (.link target) →
      Leads fs (if target.head? = some slash then [] else p) (components target ++ names) k q →
      Leads fs p (name :: names) (k + 1) q

section Leads

variable {fs : Fs} {p q m : Place} {names more : List CStr} {name : CStr} {k l links fuel : Nat}

/-- There is one place the names lead to. -/
theorem Leads.unique (leads : Leads fs p names k q) {k' : Nat} {q' : Place} (leads' : Leads fs p names k' q') :
    k' = k ∧ q' = q := by
  induction leads generalizing k' with
  | done =>
      cases leads'
      exact ⟨rfl, rfl⟩
  | here _ _ ih =>
      cases leads' with
      | here _ rest => exact ih rest
      | down _ plain => exact absurd rfl plain
      | follow _ plain => exact absurd rfl plain
  | up _ _ ih =>
      cases leads' with
      | up _ rest => exact ih rest
      | down _ _ plain => exact absurd rfl plain
      | follow _ _ plain => exact absurd rfl plain
  | down _ notDot notDots _ there plain _ ih =>
      cases leads' with
      | here => exact absurd rfl notDot
      | up => exact absurd rfl notDots
      | down _ _ _ _ _ _ rest => exact ih rest
      | follow _ _ _ _ link => exact absurd (Option.some.inj (there.symm.trans link)) (plain _)
  | follow _ notDot notDots _ there _ ih =>
      cases leads' with
      | here => exact absurd rfl notDot
      | up => exact absurd rfl notDots
      | down _ _ _ _ node plain => exact absurd (Option.some.inj (node.symm.trans there)) (plain _)
      | follow _ _ _ _ link rest =>
          cases there.symm.trans link
          obtain ⟨rfl, same⟩ := ih rest
          exact ⟨rfl, same⟩

theorem Leads.append (first : Leads fs p names k m) (second : Leads fs m more l q) :
    Leads fs p (names ++ more) (k + l) q := by
  induction first with
  | done => rwa [List.nil_append, Nat.zero_add]
  | here dir _ ih => exact .here dir (ih second)
  | up dir _ ih => exact .up dir (ih second)
  | down dir notDot notDots short there plain _ ih => exact .down dir notDot notDots short there plain (ih second)
  | follow dir notDot notDots short there _ ih =>
      have onward := ih second
      rw [List.append_assoc] at onward
      rw [Nat.add_right_comm]
      exact .follow dir notDot notDots short there onward

/-- What leads on leads somewhere in between. -/
theorem Leads.split (leads : Leads fs p (names ++ more) k q) :
    ∃ m k' l, Leads fs p names k' m ∧ Leads fs m more l q ∧ k = k' + l := by
  generalize all : names ++ more = whole at leads
  induction leads generalizing names with
  | done =>
      obtain ⟨rfl, rfl⟩ := List.append_eq_nil_iff.mp all
      exact ⟨_, 0, 0, .done, .done, rfl⟩
  | @here p q rest k dir later ih =>
      cases names with
      | nil =>
          obtain rfl : more = _ := all
          exact ⟨p, 0, k, .done, .here dir later, (Nat.zero_add k).symm⟩
      | cons n names =>
          obtain ⟨rfl, rfl⟩ := List.cons.inj all
          obtain ⟨m, k', l, first, second, sum⟩ := ih rfl
          exact ⟨m, k', l, .here dir first, second, sum⟩
  | @up p q rest k dir later ih =>
      cases names with
      | nil =>
          obtain rfl : more = _ := all
          exact ⟨p, 0, k, .done, .up dir later, (Nat.zero_add k).symm⟩
      | cons n names =>
          obtain ⟨rfl, rfl⟩ := List.cons.inj all
          obtain ⟨m, k', l, first, second, sum⟩ := ih rfl
          exact ⟨m, k', l, .up dir first, second, sum⟩
  | @down p q n rest node k dir notDot notDots short there plain later ih =>
      cases names with
      | nil =>
          obtain rfl : more = _ := all
          exact ⟨p, 0, k, .done, .down dir notDot notDots short there plain later, (Nat.zero_add k).symm⟩
      | cons n names =>
          obtain ⟨rfl, rfl⟩ := List.cons.inj all
          obtain ⟨m, k', l, first, second, sum⟩ := ih rfl
          exact ⟨m, k', l, .down dir notDot notDots short there plain first, second, sum⟩
  | @follow p q n target rest k dir notDot notDots short there later ih =>
      cases names with
      | nil =>
          obtain rfl : more = _ := all
          exact ⟨p, 0, k + 1, .done, .follow dir notDot notDots short there later, (Nat.zero_add _).symm⟩
      | cons n names =>
          obtain ⟨rfl, rfl⟩ := List.cons.inj all
          obtain ⟨m, k', l, first, second, sum⟩ := @ih (components target ++ names) (List.append_assoc _ _ _)
          exact ⟨m, k' + 1, l, .follow dir notDot notDots short there first, second, by rw [sum, Nat.add_right_comm]⟩

/-- What is only added to a tree changes nothing about where names lead. -/
theorem Leads.kept {fs' : Fs} (leads : Leads fs p names k q)
    (kept : ∀ place node, fs.get? place = some node → fs'.get? place = some node) : Leads fs' p names k q := by
  induction leads with
  | done => exact .done
  | here dir _ ih => exact .here (kept _ _ dir) ih
  | up dir _ ih => exact .up (kept _ _ dir) ih
  | down dir notDot notDots short there plain _ ih =>
      exact .down (kept _ _ dir) notDot notDots short (kept _ _ there) plain ih
  | follow dir notDot notDots short there _ ih => exact .follow (kept _ _ dir) notDot notDots short (kept _ _ there) ih

/-! ### The bounded walk -/

theorem length_components_le (path : CStr) : (components path).length ≤ path.length + 1 :=
  length_pieces_le path

/-- Where names lead, a walk with steps and links to spare goes on from there. -/
theorem Leads.walks (bound extra : Nat) {follow : Bool} (short : ∀ place target, fs.get? place = some (.link target) → target.length < bound)
    (leads : Leads fs p names k m) (few : k ≤ links) (goes : more ≠ [] ∨ follow = true)
    (enough : names.length + links * bound + extra ≤ fuel) :
    ∃ fuel', (links - k) * bound + extra ≤ fuel' ∧
      fs.walk follow fuel links p (names ++ more) = fs.walk follow fuel' (links - k) m more := by
  induction leads generalizing links fuel with
  | done =>
      rw [List.length_nil, Nat.zero_add] at enough
      exact ⟨fuel, enough, rfl⟩
  | here dir _ ih =>
      rw [List.length_cons] at enough
      obtain ⟨fuel, rfl⟩ : ∃ left, fuel = left + 1 := ⟨fuel - 1, by omega⟩
      obtain ⟨fuel', left, walked⟩ := @ih links fuel few (by omega)
      refine ⟨fuel', left, ?_⟩
      rw [List.cons_append, Fs.walk, dir]
      exact walked
  | up dir _ ih =>
      rw [List.length_cons] at enough
      obtain ⟨fuel, rfl⟩ : ∃ left, fuel = left + 1 := ⟨fuel - 1, by omega⟩
      obtain ⟨fuel', left, walked⟩ := @ih links fuel few (by omega)
      refine ⟨fuel', left, ?_⟩
      rw [List.cons_append, Fs.walk, dir]
      exact walked
  | @down p q n rest node k dir notDot notDots limit there plain _ ih =>
      rw [List.length_cons] at enough
      obtain ⟨fuel, rfl⟩ : ∃ left, fuel = left + 1 := ⟨fuel - 1, by omega⟩
      obtain ⟨fuel', left, walked⟩ := @ih links fuel few (by omega)
      refine ⟨fuel', left, ?_⟩
      rw [List.cons_append, Fs.walk, dir]
      dsimp only
      rw [if_neg notDot, if_neg notDots, if_neg (Nat.not_lt_of_le limit), there]
      cases node with
      | dir => exact walked
      | file bytes => exact walked
      | link target => exact absurd rfl (plain target)
  | @follow p q n target rest k dir notDot notDots limit there _ ih =>
      rw [List.length_cons] at enough
      obtain ⟨fuel, rfl⟩ : ∃ left, fuel = left + 1 := ⟨fuel - 1, by omega⟩
      obtain ⟨links, rfl⟩ : ∃ left, links = left + 1 := ⟨links - 1, by omega⟩
      have small := short _ _ there
      have names := length_components_le target
      rw [Nat.succ_mul] at enough
      obtain ⟨fuel', left, walked⟩ := @ih links fuel (Nat.le_of_succ_le_succ few) (by rw [List.length_append]; omega)
      rw [Nat.add_sub_add_right]
      refine ⟨fuel', left, ?_⟩
      have last : ¬ (rest ++ more = [] ∧ ¬ follow = true) := by
        rintro ⟨ended, stays⟩
        rcases goes with some | goes
        · exact some (List.append_eq_nil_iff.mp ended).2
        · exact stays goes
      rw [List.cons_append, Fs.walk, dir]
      dsimp only
      rw [if_neg notDot, if_neg notDots, if_neg (Nat.not_lt_of_le limit), there]
      dsimp only
      rw [if_neg last, if_neg (Nat.succ_ne_zero links), Nat.succ_sub_one, ← List.append_assoc]
      exact walked

/-- A walk along the names passes where they lead. -/
theorem leads_of_walk {follow : Bool} (walked : fs.walk follow fuel links p (names ++ more) = .ok q)
    (goes : more ≠ [] ∨ follow = true ∧ fs.get? q ≠ none) :
    ∃ k m fuel', k ≤ links ∧ Leads fs p names k m ∧ fs.walk follow fuel' (links - k) m more = .ok q := by
  induction fuel generalizing links p names with
  | zero => cases walked
  | succ fuel ih =>
      cases names with
      | nil => exact ⟨0, p, fuel + 1, Nat.zero_le _, .done, walked⟩
      | cons n names =>
          rw [List.cons_append] at walked
          generalize tail : names ++ more = behind at walked
          cases walks_of_walk walked with
          | here dir later =>
              rw [← tail] at later
              obtain ⟨k, m, fuel', few, leads, rest⟩ := ih later.walk
              exact ⟨k, m, fuel', few, .here dir leads, rest⟩
          | up dir later =>
              rw [← tail] at later
              obtain ⟨k, m, fuel', few, leads, rest⟩ := ih later.walk
              exact ⟨k, m, fuel', few, .up dir leads, rest⟩
          | missing dir notDot notDots limit there =>
              rcases goes with some | ⟨-, found⟩
              · exact absurd (List.append_eq_nil_iff.mp tail).2 some
              · exact absurd there found
          | last dir notDot notDots limit there unfollowed =>
              rcases goes with some | ⟨follows, -⟩
              · exact absurd (List.append_eq_nil_iff.mp tail).2 some
              · cases unfollowed.symm.trans follows
          | down dir notDot notDots limit there plain later =>
              rw [← tail] at later
              obtain ⟨k, m, fuel', few, leads, rest⟩ := ih later.walk
              exact ⟨k, m, fuel', few, .down dir notDot notDots limit there plain leads, rest⟩
          | link dir notDot notDots limit there follows later =>
              rw [← tail, ← List.append_assoc] at later
              obtain ⟨k, m, fuel', few, leads, rest⟩ := ih later.walk
              refine ⟨k + 1, m, fuel', Nat.succ_le_succ few, .follow dir notDot notDots limit there leads, ?_⟩
              rw [Nat.succ_sub_succ]
              exact rest

/-- A walk with nothing left but a trailing slash ends where it is. -/
theorem ended_of_walk {follow : Bool} {special : List CStr} (dots : special = [] ∨ special = [[dot]])
    (walked : fs.walk follow fuel links p special = .ok q) : p = q := by
  rcases dots with rfl | rfl
  · cases walks_of_walk walked
    rfl
  · cases walks_of_walk walked with
    | here dir later =>
        cases later
        rfl
    | missing dir notDot => exact absurd rfl notDot
    | down dir notDot => exact absurd rfl notDot
    | last dir notDot => exact absurd rfl notDot
    | link dir notDot => exact absurd rfl notDot

end Leads

/-! ### Resolved paths -/

/-- Where the names of a path start. -/
def origin (fs : Fs) (path : CStr) : Place := if path.head? = some slash then [] else fs.cwd

/-- The names the kernel walks down. -/
def trail (path : CStr) : List CStr :=
  components path ++ if path.getLast? = some slash then [[dot]] else []

/-- The links of a tree lead to paths. -/
def ShortLinks (fs : Fs) : Prop := ∀ place target, fs.get? place = some (.link target) → target.length < PATH_MAX

section Paths

variable {fs : Fs} {follow : Bool} {path name : CStr} {names : List CStr} {q : Place}

/-- A path that is resolved is neither empty nor too long. -/
theorem resolve_fits (resolved : fs.resolve follow path = .ok q) : path ≠ [] ∧ path.length < PATH_MAX := by
  rw [Fs.resolve] at resolved
  split_ifs at resolved with empty long
  all_goals exact ⟨empty, Nat.lt_of_not_le long⟩

theorem resolve_eq (nonempty : path ≠ []) (fits : path.length < PATH_MAX) :
    fs.resolve follow path = fs.walk follow (42 * PATH_MAX) 40 (origin fs path) (trail path) := by
  rw [Fs.resolve, if_neg nonempty, if_neg (Nat.not_le_of_lt fits), origin, trail]

theorem walk_of_resolve (resolved : fs.resolve follow path = .ok q) :
    fs.walk follow (42 * PATH_MAX) 40 (origin fs path) (trail path) = .ok q := by
  obtain ⟨nonempty, fits⟩ := resolve_fits resolved
  rwa [resolve_eq nonempty fits] at resolved

/-- Following a last link changes nothing where there is none. -/
theorem resolve_follow {node : Node} (resolved : fs.resolve false path = .ok q)
    (found : fs.get? q = some node) (plain : ∀ target, node ≠ .link target) : fs.resolve true path = .ok q := by
  unfold Fs.resolve at resolved ⊢
  split_ifs at resolved ⊢
  all_goals exact ((walks_of_walk resolved).follows found plain).walk

/-- A regular file that `lstat` finds is the one `open` opens. -/
theorem openRead_of_lstat {bytes : List Byte}
    (found : fs.lstat path = .ok (.file bytes)) : fs.openRead path = .ok (.file bytes) := by
  obtain ⟨place, resolved, node⟩ := ok_of_bind found
  have regular : fs.get? place = some (.file bytes) := by
    split at node
    · cases node
    · cases node
      assumption
  simp [Fs.openRead, resolve_follow resolved regular fun _ => nofun, bind, Except.bind, regular]

/-- A trailing slash asks for a directory, as a last name `.` does. -/
theorem trailing_cases (path : CStr) : (if path.getLast? = some slash then [[dot]] else []) = [] ∨
    (if path.getLast? = some slash then [[dot]] else []) = [[dot]] := by
  split_ifs
  · exact .inr rfl
  · exact .inl rfl

/-- The names of a path lead to what it is resolved to. -/
theorem leads_of_resolve (resolved : fs.resolve true path = .ok q) (there : fs.get? q ≠ none) :
    ∃ k ≤ 40, Leads fs (origin fs path) (components path) k q := by
  obtain ⟨k, m, fuel, few, leads, rest⟩ := leads_of_walk (walk_of_resolve resolved) (.inr ⟨rfl, there⟩)
  obtain rfl := ended_of_walk (trailing_cases path) rest
  exact ⟨k, few, leads⟩

/-- The names of a path lead to the directory that `lstat` finds. -/
theorem leads_of_directory (resolved : fs.resolve false path = .ok q) (directory : fs.get? q = some .dir) :
    ∃ k ≤ 40, Leads fs (origin fs path) (components path) k q :=
  leads_of_resolve (resolve_follow resolved directory Node.dir_ne_link) (by rw [directory]; exact Option.some_ne_none _)

/-- A walk that does not follow a last link leads to an entry of the directory that the names
before it lead to, whether or not that entry is there. -/
theorem walk_last_iff {start : Place} (short : ShortLinks fs) (proper : Proper name) (fits : names.length ≤ PATH_MAX) :
    fs.walk false (42 * PATH_MAX) 40 start (names ++ [name]) = .ok q ↔
      ∃ k ≤ 40, ∃ parent, Leads fs start names k parent ∧ fs.get? parent = some .dir ∧ name.length ≤ NAME_MAX ∧
        q = parent ++ [name] := by
  constructor
  · intro walked
    obtain ⟨k, m, fuel, few, leads, rest⟩ := leads_of_walk walked (.inl (List.cons_ne_nil _ _))
    generalize 40 - k = left at rest
    cases walks_of_walk rest with
    | here => exact absurd rfl proper.notDot
    | up => exact absurd rfl proper.notDots
    | missing dir notDot notDots limit there => exact ⟨k, few, m, leads, dir, limit, rfl⟩
    | last dir notDot notDots limit there unfollowed => exact ⟨k, few, m, leads, dir, limit, rfl⟩
    | down dir notDot notDots limit there plain later =>
        cases later
        exact ⟨k, few, m, leads, dir, limit, rfl⟩
    | link dir notDot notDots limit there goes later =>
        rcases goes with more | follows
        · exact absurd rfl more
        · cases follows
  · rintro ⟨k, few, parent, leads, dir, limit, rfl⟩
    obtain ⟨fuel, left, walked⟩ := @Leads.walks fs start parent names [name] k 40 (42 * PATH_MAX) PATH_MAX 2 false short leads few
      (.inl (List.cons_ne_nil _ _)) (by simp only [PATH_MAX] at fits ⊢; omega)
    obtain ⟨fuel, rfl⟩ : ∃ left, fuel = left + 2 := ⟨fuel - 2, by omega⟩
    rw [walked]
    cases there : fs.get? (parent ++ [name]) with
    | none => exact (Walks.missing dir proper.notDot proper.notDots limit there).walk
    | some node =>
        by_cases link : ∃ target, node = .link target
        · obtain ⟨target, rfl⟩ := link
          exact (Walks.last dir proper.notDot proper.notDots limit there rfl).walk
        · exact (Walks.down dir proper.notDot proper.notDots limit there (not_exists.mp link) .arrived).walk

/-- A path that ends in a name leads to an entry of the directory that the names before it
lead to. -/
theorem resolve_name_iff (short : ShortLinks fs) (proper : Proper name) (split : components path = names ++ [name])
    (ends : path.getLast? ≠ some slash) (fits : path.length < PATH_MAX) :
    fs.resolve false path = .ok q ↔ ∃ k ≤ 40, ∃ parent, Leads fs (origin fs path) names k parent ∧
      fs.get? parent = some .dir ∧ name.length ≤ NAME_MAX ∧ q = parent ++ [name] := by
  have nonempty : path ≠ [] := by
    rintro rfl
    cases (List.append_eq_nil_iff.mp split.symm).2
  have few := length_components_le path
  rw [split, List.length_append, List.length_singleton] at few
  rw [resolve_eq nonempty fits, trail, if_neg ends, List.append_nil, split,
    walk_last_iff short proper (Nat.le_trans (Nat.le_of_succ_le_succ few) (Nat.le_of_lt fits))]

theorem components_entry (proper : Proper name) : components (path ++ slash :: name) = components path ++ [name] := by
  rw [components, pieces_append, pieces_of_isName proper.toIsName]
  rfl

theorem getLast?_entry (proper : Proper name) : (path ++ slash :: name).getLast? ≠ some slash := by
  intro ends
  rw [List.getLast?_append_of_ne_nil _ (List.cons_ne_nil _ _), List.getLast?_cons,
    List.getLast?_eq_some_getLast proper.nonempty] at ends
  refine proper.free ?_
  rw [← Option.some.inj ends]
  exact List.getLast_mem _

/-- The path of an entry leads into the directory that the path of the directory leads to. -/
theorem resolve_entry_iff (short : ShortLinks fs) (proper : Proper name) (nonempty : path ≠ [])
    (fits : (path ++ slash :: name).length < PATH_MAX) :
    fs.resolve false (path ++ slash :: name) = .ok q ↔ ∃ k ≤ 40, ∃ parent, Leads fs (origin fs path) (components path) k parent ∧
      fs.get? parent = some .dir ∧ name.length ≤ NAME_MAX ∧ q = parent ++ [name] := by
  have start : origin fs (path ++ slash :: name) = origin fs path := by
    rw [origin, origin, List.head?_append_of_ne_nil _ nonempty]
  rw [resolve_name_iff short proper (components_entry proper) (getLast?_entry proper) fits, start]

end Paths

end MiniDropbox
