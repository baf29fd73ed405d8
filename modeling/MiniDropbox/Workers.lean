/-
The worker pool (`server.c`): `main` makes the workers, each runs `worker`, and
`cleanup` ends them, when a signal comes or when the process exits.

The threads take steps in any order; a step is one access to a `Worker` or one call
on its semaphore or thread. A signal is handled by the main thread, which does not
come back from the handler. Nothing in the sources assigns a task, so the field
`func` is what `malloc` found. What has no meaning, such as joining a thread that was
not made, leads to `undefined`. A worker frees its record, so `cleanup` may come to it too
late: such an access is noted, and finds the record only if nobody has used its memory since.
-/

import Mathlib.Algebra.BigOperators.Group.Finset.Basic
import Mathlib.Algebra.Order.BigOperators.Group.Finset
import MiniDropbox.Lib.Transition

namespace MiniDropbox

open Transition

def NTHREADS : Nat := 10

/-! ### Records and threads -/

/-- A `Worker`: `func` says whether the pointer is other than NULL, and the semaphore
and the thread are there once they are made. -/
structure Worker where
  terminated : Bool
  func : Bool
  workSem : Option Nat
  thread : Bool
  freed : Bool

/-- Where a thread is in `worker`; `task` is the call of `func`. -/
inductive ThreadPc where
  | absent | wait | check | func | task | free | done | joined
  deriving DecidableEq, Repr

/-- The statements of the loop that makes the workers. -/
inductive Creating where
  | malloc | fields | semInit | spawn
  deriving DecidableEq, Repr

/-- The statements of the loop of `cleanup`; `read` fetches the thread to be joined. -/
inductive Cleaning where
  | test | flag | post | read | join | destroy
  deriving DecidableEq, Repr

inductive MainPc where
  | create (i : Nat) (stage : Creating)
  | serve
  | clean (signalled : Bool) (i : Nat) (stage : Cleaning)
  | ended
  | undefined
  deriving DecidableEq, Repr

@[ext] structure Pool where
  workers : Nat → Option Worker
  threads : Nat → ThreadPc
  main : MainPc
  /-- The accesses of `cleanup` to freed records. -/
  stale : List (Nat × Cleaning)

/-- The memory of the records. -/
structure Heap where
  /-- What `malloc` finds in a record: the flag, and whether `func` is a pointer. -/
  held : Nat → Bool × Bool
  /-- Whether the nth access to a freed record finds what the worker left in it. -/
  kept : Nat → Bool

namespace Pool

def start : Pool := ⟨fun _ => none, fun _ => .absent, .create 0 .malloc, []⟩

def make (s : Pool) (i : Nat) (held : Bool × Bool) : Pool :=
  { s with workers := Function.update s.workers i (some ⟨held.1, held.2, none, false, false⟩) }

def modify (s : Pool) (i : Nat) (f : Worker → Worker) : Pool :=
  { s with workers := Function.update s.workers i ((s.workers i).map f) }

def move (s : Pool) (i : Nat) (pc : ThreadPc) : Pool :=
  { s with threads := Function.update s.threads i pc }

def goto (s : Pool) (pc : MainPc) : Pool := { s with main := pc }

/-- An access of `cleanup` to a record. -/
def touch (s : Pool) (i : Nat) (stage : Cleaning) : Pool :=
  { s with stale := if (s.workers i).any Worker.freed then s.stale ++ [(i, stage)] else s.stale }

/-- Where an access to a record leads: on to `main`, unless the record has been freed and its
memory holds something else by now. -/
def found (memory : Heap) (s : Pool) (i : Nat) (main : MainPc) : MainPc :=
  if (s.workers i).any Worker.freed && !memory.kept s.stale.length then .undefined else main

/-- The next step of `main`, or of `cleanup` once it is called. -/
def runMain (memory : Heap) (s : Pool) : Option Pool :=
  match s.main with
  | .create i .malloc =>
      if i < NTHREADS then some ((s.make i (memory.held i)).goto (.create i .fields)) else some (s.goto .serve)
  | .create i .fields => some ((s.modify i fun w => { w with terminated := false }).goto (.create i .semInit))
  | .create i .semInit => some ((s.modify i fun w => { w with workSem := some 0 }).goto (.create i .spawn))
  | .create i .spawn =>
      some (((s.modify i fun w => { w with thread := true }).move i .wait).goto (.create (i + 1) .malloc))
  | .clean signalled i .test =>
      if i < NTHREADS then
        some (s.goto (if (s.workers i).isNone then .clean signalled (i + 1) .test else .clean signalled i .flag))
      else some (s.goto .ended)
  | .clean signalled i .flag =>
      some (((s.touch i .flag).modify i fun w => { w with terminated := true }).goto
        (s.found memory i (.clean signalled i .post)))
  | .clean signalled i .post =>
      match (s.workers i).bind Worker.workSem with
      | none => some (s.goto .undefined)
      | some k => some (((s.touch i .post).modify i fun w =>
          { w with workSem := some (k + 1) }).goto (s.found memory i (.clean signalled i .read)))
  | .clean signalled i .read =>
      some ((s.touch i .read).goto
        (if (s.workers i).any Worker.thread then s.found memory i (.clean signalled i .join) else .undefined))
  | .clean signalled i .join =>
      match s.threads i with
      | .done => some ((s.move i .joined).goto (.clean signalled i .destroy))
      | .joined => some (s.goto .undefined)
      | _ => none
  | .clean signalled i .destroy =>
      some ((s.touch i .destroy).goto (s.found memory i (.clean signalled (i + 1) .test)))
  | .serve | .ended | .undefined => none

/-- The next step of `worker` in the thread of a record. -/
def runWorker (s : Pool) (i : Nat) : Option Pool :=
  match s.workers i, s.threads i with
  | some w, .wait =>
      match w.workSem with
      | some (k + 1) => some ((s.modify i fun w => { w with workSem := some k }).move i .check)
      | _ => none
  | some w, .check => some (s.move i (if w.terminated then .free else .func))
  | some w, .func => some (s.move i (if w.func then .task else .wait))
  | some _, .free => some ((s.modify i fun w => { w with freed := true }).move i .done)
  | _, _ => none

/-- What happens next: a step of the main thread or of a worker, a `pthread_create` that
fails, the return of `main`, or a signal. -/
inductive Action where
  | main
  | worker (i : Nat)
  | refuse
  | exit
  | signal
  deriving DecidableEq

def act (memory : Heap) (s : Pool) : Action → Option Pool
  | .main => s.runMain memory
  | .worker i => s.runWorker i
  | .refuse =>
      match s.main with
      | .create i .spawn => some (s.goto (.create (i + 1) .malloc))
      | _ => none
  | .exit => if s.main = .serve then some (s.goto (.clean false 0 .test)) else none
  | .signal =>
      match s.main with
      | .create _ _ | .serve | .clean false _ _ => some (s.goto (.clean true 0 .test))
      | _ => none

/-- Any interleaving. -/
def Step (memory : Heap) (s t : Pool) : Prop := ∃ a, s.act memory a = some t

/-! ### One worker -/

/-- How far a worker has come, from the making of its record to the joining of its
thread, when nothing goes wrong. -/
inductive Phase where
  | empty | bare | cleared | ready | waiting | flagged | posted | checked | leaving | left | joined
  deriving DecidableEq, Repr

/-- Its record; `held` is what `malloc` found in it. -/
def Phase.worker (held : Bool × Bool) : Phase → Option Worker
  | .empty => none
  | .bare => some ⟨held.1, held.2, none, false, false⟩
  | .cleared => some ⟨false, held.2, none, false, false⟩
  | .ready => some ⟨false, held.2, some 0, false, false⟩
  | .waiting => some ⟨false, held.2, some 0, true, false⟩
  | .flagged => some ⟨true, held.2, some 0, true, false⟩
  | .posted => some ⟨true, held.2, some 1, true, false⟩
  | .checked | .leaving => some ⟨true, held.2, some 0, true, false⟩
  | .left | .joined => some ⟨true, held.2, some 0, true, true⟩

/-- Its thread. -/
def Phase.thread : Phase → ThreadPc
  | .empty | .bare | .cleared | .ready => .absent
  | .waiting | .flagged | .posted => .wait
  | .checked => .check
  | .leaving => .free
  | .left => .done
  | .joined => .joined

/-- The steps its thread has still to take. -/
def Phase.rank : Phase → Nat
  | .waiting | .flagged | .posted => 3
  | .checked => 2
  | .leaving => 1
  | _ => 0

/-- The phases of worker `j` while the main thread is where it is. -/
def Phase.Allowed : MainPc → Nat → Phase → Prop
  | .create i stage, j, phase =>
      if j < i then phase = .waiting
      else if i < j then phase = .empty
      else phase = match stage with
        | .malloc => .empty
        | .fields => .bare
        | .semInit => .cleared
        | .spawn => .ready
  | .serve, _, phase => phase = .empty ∨ phase = .waiting
  | .clean _ i stage, j, phase =>
      if j < i then phase = .empty ∨ phase = .joined
      else if i < j then phase = .empty ∨ phase = .waiting
      else match stage with
        | .test => phase = .empty ∨ phase = .waiting
        | .flag => phase = .waiting
        | .post => phase = .flagged
        | .read | .join => phase = .posted ∨ phase = .checked ∨ phase = .leaving ∨ phase = .left
        | .destroy => phase = .joined
  | .ended, _, phase => phase = .empty ∨ phase = .joined
  | .undefined, _, phase => phase = .empty ∨ phase = .waiting ∨ phase = .left ∨ phase = .joined

/-! ### A calm course -/

/-- A pool in which every worker is in a phase. -/
structure Course where
  phases : Nat → Phase
  main : MainPc
  stale : List (Nat × Cleaning)

def Course.pool (memory : Heap) (c : Course) : Pool :=
  ⟨fun j => (c.phases j).worker (memory.held j), fun j => (c.phases j).thread, c.main, c.stale⟩

/-- A worker enters another phase while the main thread goes on. -/
def Course.enter (c : Course) (i : Nat) (phase : Phase) (main : MainPc) : Course :=
  ⟨Function.update c.phases i phase, main, c.stale⟩

/-- The steps the main thread has still to take, and what it makes the threads take. -/
def mainRank : MainPc → Nat
  | .create i stage => 8 * (NTHREADS + 1) + 8 * (NTHREADS - i) + match stage with
      | .malloc => 4
      | .fields => 3
      | .semInit => 2
      | .spawn => 1
  | .serve => 8 * (NTHREADS + 1)
  | .clean _ i stage => 8 * (NTHREADS - i) + match stage with
      | .test => 7
      | .flag => 6
      | .post => 5
      | .read => 4
      | .join => 3
      | .destroy => 2
  | .ended | .undefined => 0

def Course.rank (c : Course) : Nat := mainRank c.main + ∑ j ∈ Finset.range NTHREADS, (c.phases j).rank

/-- After `n` accesses to freed records: all of them found what the worker left, unless the last
has led to `undefined`. -/
def Kept (memory : Heap) (main : MainPc) (n : Nat) : Prop :=
  if main = .undefined then ∃ k, n = k + 1 ∧ memory.kept k = false else ∀ k < n, memory.kept k = true

/-- The order of things: the phases are those the main thread has brought about, and the
records that were used after they had been freed are those of workers whose thread was read or
whose semaphore was destroyed. -/
structure Course.Ordered (memory : Heap) (c : Course) : Prop where
  allowed : ∀ j, (c.phases j).Allowed c.main j
  outside : ∀ j, NTHREADS ≤ j → c.phases j = .empty
  stale : ∀ m ∈ c.stale, m.2 = .read ∨ m.2 = .destroy
  destroyed : ∀ j, c.phases j = .joined →
    (∃ signalled, c.main = .clean signalled j .destroy) ∨ (j, .destroy) ∈ c.stale
  kept : Kept memory c.main c.stale.length

/-- No `pthread_create` fails, and no signal comes in the middle of the making of a worker or
while `cleanup` is at work. -/
def Calmly (s : Pool) : Action → Prop
  | .refuse => False
  | .signal => s.main = .serve ∨ ∃ i, s.main = .create i .malloc
  | _ => True

def CalmStep (memory : Heap) (s t : Pool) : Prop := ∃ a, s.act memory a = some t ∧ s.Calmly a

section Calm

variable {memory : Heap} {c : Course} {s t : Pool} {i j : Nat} {signalled : Bool}
  {old phase : Phase} {main : MainPc}

theorem rank_enter (inside : i < NTHREADS) :
    (c.enter i phase main).rank + mainRank c.main + (c.phases i).rank = c.rank + mainRank main + phase.rank := by
  have mem : i ∈ Finset.range NTHREADS := Finset.mem_range.mpr inside
  have before := Finset.add_sum_erase (Finset.range NTHREADS) (fun j => (c.phases j).rank) mem
  have after := Finset.add_sum_erase (Finset.range NTHREADS)
    (fun j => (Function.update c.phases i phase j).rank) mem
  have others : ∑ j ∈ (Finset.range NTHREADS).erase i, (Function.update c.phases i phase j).rank =
      ∑ j ∈ (Finset.range NTHREADS).erase i, (c.phases j).rank :=
    Finset.sum_congr rfl fun j mem => by rw [Function.update_of_ne (Finset.ne_of_mem_erase mem)]
  simp only [Function.update_self, others] at after
  simp only [Course.rank, Course.enter]
  omega

/-- A step that changes one worker leads to another course. -/
theorem pool_enter (i : Nat) (worker : t.workers i = phase.worker (memory.held i)) (thread : t.threads i = phase.thread)
    (others : ∀ j ≠ i, t.workers j = (c.pool memory).workers j ∧ t.threads j = (c.pool memory).threads j)
    (stale : t.stale = c.stale) : t = (c.enter i phase t.main).pool memory := by
  have workers : t.workers = ((c.enter i phase t.main).pool memory).workers := by
    funext j
    by_cases this : j = i
    · subst this
      simp [worker, Course.pool, Course.enter]
    · simp [(others j this).1, Course.pool, Course.enter, this]
  have threads : t.threads = ((c.enter i phase t.main).pool memory).threads := by
    funext j
    by_cases this : j = i
    · subst this
      simp [thread, Course.pool, Course.enter]
    · simp [(others j this).2, Course.pool, Course.enter, this]
  exact Pool.ext workers threads rfl stale

/-- The step leads from one course to another, with less to come. -/
def Leads (memory : Heap) (c : Course) (t : Pool) : Prop :=
  ∃ next : Course, t = next.pool memory ∧ next.Ordered memory ∧ next.rank < c.rank

/-- The rule for a step that changes one worker. -/
theorem Course.Ordered.enters (ordered : c.Ordered memory) (i : Nat) (phase : Phase) (inside : i < NTHREADS)
    (worker : t.workers i = phase.worker (memory.held i)) (thread : t.threads i = phase.thread)
    (others : ∀ j ≠ i, t.workers j = (c.pool memory).workers j ∧ t.threads j = (c.pool memory).threads j)
    (stale : t.stale = c.stale) (allowed : phase.Allowed t.main i)
    (goes : ∀ j ≠ i, ∀ phase : Phase, phase.Allowed c.main j → phase.Allowed t.main j)
    (passed : ∀ signalled j, c.main = .clean signalled j .destroy → t.main = c.main)
    (joined : phase = .joined → ∃ signalled, t.main = .clean signalled i .destroy)
    (defined : t.main = .undefined ↔ c.main = .undefined)
    (lower : mainRank t.main + phase.rank < mainRank c.main + (c.phases i).rank) : Leads memory c t := by
  refine ⟨_, pool_enter i worker thread others stale, ⟨fun j => ?_, fun j beyond => ?_, ordered.stale,
    fun j isJoined => ?_, ?_⟩, ?_⟩
  · by_cases this : j = i
    · subst this
      simpa [Course.enter] using allowed
    · simpa [Course.enter, this] using goes j this _ (ordered.allowed j)
  · have other : j ≠ i := by omega
    simpa [Course.enter, other] using ordered.outside j beyond
  · by_cases this : j = i
    · subst this
      exact .inl (joined (by simpa [Course.enter] using isJoined))
    · refine (ordered.destroyed j (by simpa [Course.enter, this] using isJoined)).imp_left ?_
      rintro ⟨signalled, here⟩
      exact ⟨signalled, (passed _ _ here).trans here⟩
  · have kept := ordered.kept
    simpa only [Kept, Course.enter, defined] using kept
  · have ranks := @rank_enter c i phase t.main inside
    omega

/-- The rule for a step of the main thread that changes no worker. -/
theorem Course.Ordered.goes (ordered : c.Ordered memory) (main : MainPc) (noted : List (Nat × Cleaning))
    (after : t = ⟨(c.pool memory).workers, (c.pool memory).threads, main, c.stale ++ noted⟩)
    (all : ∀ j, (c.phases j).Allowed c.main j → (NTHREADS ≤ j → c.phases j = .empty) → (c.phases j).Allowed main j)
    (among : ∀ m ∈ noted, m.2 = .read ∨ m.2 = .destroy)
    (passed : ∀ signalled j, c.main = .clean signalled j .destroy → (j, .destroy) ∈ noted)
    (kept : Kept memory main (c.stale ++ noted).length)
    (lower : mainRank main < mainRank c.main) : Leads memory c t := by
  refine ⟨⟨c.phases, main, c.stale ++ noted⟩, after, ⟨fun j => all j (ordered.allowed j) (ordered.outside j),
    ordered.outside, fun m mem => ?_, fun j joined => .inr ?_, kept⟩, ?_⟩
  · exact (List.mem_append.mp mem).elim (ordered.stale m) (among m)
  · rcases ordered.destroyed j joined with ⟨signalled, here⟩ | there
    · exact List.mem_append_right _ (passed _ _ here)
    · exact List.mem_append_left _ there
  · simp only [Course.rank]
    omega

/-- Between two accesses to freed records. -/
theorem Kept.goes (kept : Kept memory c.main c.stale.length) (here : c.main ≠ .undefined) (next : main ≠ .undefined) :
    Kept memory main (c.stale ++ []).length := by
  rw [Kept, if_neg here] at kept
  rw [Kept, if_neg next, List.append_nil]
  exact kept

theorem allowed_create {stage stage' : Creating} (other : j ≠ i) (allowed : phase.Allowed (.create i stage) j) :
    phase.Allowed (.create i stage') j := by
  simp only [Phase.Allowed] at allowed ⊢
  split_ifs at allowed ⊢ with before after
  · exact allowed
  · exact allowed
  · omega

theorem allowed_create_next {stage : Creating} (other : j ≠ i) (allowed : phase.Allowed (.create i stage) j) :
    phase.Allowed (.create (i + 1) .malloc) j := by
  simp only [Phase.Allowed] at allowed ⊢
  split_ifs at allowed ⊢ <;> first | exact allowed | omega

theorem allowed_clean {stage stage' : Cleaning} (other : j ≠ i) (allowed : phase.Allowed (.clean signalled i stage) j) :
    phase.Allowed (.clean signalled i stage') j := by
  simp only [Phase.Allowed] at allowed ⊢
  split_ifs at allowed ⊢ with before after
  · exact allowed
  · exact allowed
  · omega

@[simp] theorem main_goto : (s.goto main).main = main := rfl

@[simp] theorem workers_goto : (s.goto main).workers = s.workers := rfl

@[simp] theorem threads_goto : (s.goto main).threads = s.threads := rfl

@[simp] theorem stale_goto : (s.goto main).stale = s.stale := rfl

@[simp] theorem main_touch (stage : Cleaning) : (s.touch i stage).main = s.main := rfl

@[simp] theorem workers_touch (stage : Cleaning) : (s.touch i stage).workers = s.workers := rfl

@[simp] theorem threads_touch (stage : Cleaning) : (s.touch i stage).threads = s.threads := rfl

@[simp] theorem main_modify (f : Worker → Worker) : (s.modify i f).main = s.main := rfl

@[simp] theorem workers_modify (f : Worker → Worker) :
    (s.modify i f).workers j = if j = i then (s.workers i).map f else s.workers j := by
  simp [modify, Function.update_apply]

@[simp] theorem threads_modify (f : Worker → Worker) : (s.modify i f).threads = s.threads := rfl

@[simp] theorem stale_modify (f : Worker → Worker) : (s.modify i f).stale = s.stale := rfl

@[simp] theorem workers_make (held : Bool × Bool) :
    (s.make i held).workers j = if j = i then some ⟨held.1, held.2, none, false, false⟩ else s.workers j := by
  simp [make, Function.update_apply]

@[simp] theorem threads_make (held : Bool × Bool) : (s.make i held).threads = s.threads := rfl

@[simp] theorem stale_make (held : Bool × Bool) : (s.make i held).stale = s.stale := rfl

@[simp] theorem main_move (pc : ThreadPc) : (s.move i pc).main = s.main := rfl

@[simp] theorem workers_move (pc : ThreadPc) : (s.move i pc).workers = s.workers := rfl

@[simp] theorem threads_move (pc : ThreadPc) : (s.move i pc).threads j = if j = i then pc else s.threads j := by
  simp [move, Function.update_apply]

@[simp] theorem stale_move (pc : ThreadPc) : (s.move i pc).stale = s.stale := rfl

@[simp] theorem workers_pool : (c.pool memory).workers j = (c.phases j).worker (memory.held j) := rfl

@[simp] theorem threads_pool : (c.pool memory).threads j = (c.phases j).thread := rfl

@[simp] theorem stale_pool : (c.pool memory).stale = c.stale := rfl

theorem stale_touch (stage : Cleaning) :
    (s.touch i stage).stale = s.stale ++ if (s.workers i).any Worker.freed then [(i, stage)] else [] := by
  simp only [touch]
  split_ifs <;> simp

/-- An access to a record, freed or not. -/
theorem Kept.found (kept : Kept memory c.main c.stale.length) (here : c.main ≠ .undefined) (next : main ≠ .undefined)
    (stage : Cleaning) :
    Kept memory ((c.pool memory).found memory i main) ((c.pool memory).touch i stage).stale.length := by
  rw [Kept, if_neg here] at kept
  rw [stale_touch, Pool.found, stale_pool]
  cases freed : ((c.pool memory).workers i).any Worker.freed with
  | false =>
      rw [Bool.false_and, if_neg Bool.false_ne_true, if_neg Bool.false_ne_true, List.append_nil, Kept, if_neg next]
      exact kept
  | true =>
      rw [if_pos rfl, List.length_append, List.length_singleton]
      cases left : memory.kept c.stale.length with
      | false => exact ⟨c.stale.length, rfl, left⟩
      | true =>
          rw [Bool.not_true, Bool.and_false, if_neg Bool.false_ne_true, Kept, if_neg next]
          intro k below
          rcases Nat.lt_succ_iff_lt_or_eq.mp below with before | rfl
          · exact kept k before
          · exact left

/-- The record of a worker is freed once its thread has left the loop. -/
theorem freed_iff : ((c.pool memory).workers i).any Worker.freed = true ↔ c.phases i = .left ∨ c.phases i = .joined := by
  cases phase : c.phases i <;> simp [phase, Phase.worker]

/-- Where an access to a freed record may lead, all threads are at rest. -/
theorem allowed_found {stage : Cleaning} (here : c.main = .clean signalled i stage)
    (allowed : (c.phases j).Allowed c.main j) (next : (c.phases j).Allowed main j) :
    (c.phases j).Allowed ((c.pool memory).found memory i main) j := by
  unfold Pool.found
  split_ifs with lost
  · have freed := freed_iff.mp (Bool.and_eq_true_iff.mp lost).1
    by_cases this : j = i
    · subst this
      exact .inr (.inr freed)
    · rw [here] at allowed
      simp only [Phase.Allowed] at allowed ⊢
      split_ifs at allowed
      · exact allowed.imp_right fun joined => .inr (.inr joined)
      · exact allowed.imp_right .inl
      · omega
  · exact next

theorem mainRank_found : mainRank (s.found memory i main) ≤ mainRank main := by
  unfold Pool.found
  split_ifs
  · exact Nat.zero_le _
  · exact Nat.le_refl _

theorem inside_of_phase (ordered : c.Ordered memory) (some : c.phases i ≠ .empty) : i < NTHREADS := by
  by_contra beyond
  exact some (ordered.outside i (Nat.le_of_not_lt beyond))

/-- The rule for a step in the making of a worker, but the last. -/
theorem Course.Ordered.creates {stage stage' : Creating} (ordered : c.Ordered memory) (here : c.main = .create i stage)
    (inside : i < NTHREADS) (phase : Phase) (main : t.main = .create i stage')
    (worker : t.workers i = phase.worker (memory.held i)) (thread : t.threads i = phase.thread)
    (others : ∀ j ≠ i, t.workers j = (c.pool memory).workers j ∧ t.threads j = (c.pool memory).threads j)
    (stale : t.stale = c.stale) (allowed : phase.Allowed t.main i) (before : phase ≠ .joined)
    (lower : mainRank t.main + phase.rank < mainRank c.main + (c.phases i).rank) : Leads memory c t := by
  refine ordered.enters i phase inside worker thread others stale allowed ?_ ?_ (fun last => absurd last before) ?_ lower
  · intro j other old
    rw [here, main]
    exact allowed_create other
  · simp [here]
  · simp [here, main]

/-- Making a worker, the main thread leads from one course to another. -/
theorem leads_create (ordered : c.Ordered memory) {stage : Creating} (here : c.main = .create i stage)
    (run : (c.pool memory).runMain memory = some t) : Leads memory c t := by
  have phase := ordered.allowed i
  rw [here] at phase
  simp only [Phase.Allowed, Nat.lt_irrefl, if_false] at phase
  have main : (c.pool memory).main = .create i stage := here
  unfold runMain at run
  rw [main] at run
  cases stage with
  | malloc =>
      simp only at run phase
      split_ifs at run with more
      · cases run
        refine ordered.creates here more .bare rfl ?_ ?_ ?_ rfl ?_ (by simp) ?_
        · simp [Phase.worker]
        · simp [Phase.thread, phase]
        · intro j other
          simp [other]
        · simp [Phase.Allowed]
        · rw [here, phase]
          simp [mainRank, Phase.rank]
      · cases run
        refine ordered.goes .serve [] ?_ ?_ ?_ ?_ ?_ ?_
        · simp [goto, Course.pool]
        · intro j allowed _
          rw [here] at allowed
          simp only [Phase.Allowed] at allowed ⊢
          split_ifs at allowed <;> simp [allowed]
        · simp
        · simp [here]
        · exact ordered.kept.goes (by simp [here]) (by simp)
        · rw [here]
          simp only [mainRank]
          omega
  | fields =>
      cases run
      refine ordered.creates here (inside_of_phase ordered (by simp [phase])) .cleared rfl ?_ ?_ ?_ rfl ?_ (by simp) ?_
      · simp [Phase.worker, phase]
      · simp [Phase.thread, phase]
      · intro j other
        simp [other]
      · simp [Phase.Allowed]
      · rw [here, phase]
        simp [mainRank, Phase.rank]
  | semInit =>
      cases run
      refine ordered.creates here (inside_of_phase ordered (by simp [phase])) .ready rfl ?_ ?_ ?_ rfl ?_ (by simp) ?_
      · simp [Phase.worker, phase]
      · simp [Phase.thread, phase]
      · intro j other
        simp [other]
      · simp [Phase.Allowed]
      · rw [here, phase]
        simp [mainRank, Phase.rank]
  | spawn =>
      cases run
      have inside := inside_of_phase ordered (i := i) (by simp [phase])
      refine ordered.enters i .waiting inside ?_ ?_ ?_ rfl ?_ ?_ ?_ ?_ ?_ ?_
      · simp [Phase.worker, phase]
      · simp [Phase.thread]
      · intro j other
        simp [other]
      · simp [Phase.Allowed]
      · intro j other phase
        rw [here]
        exact allowed_create_next other
      · simp [here]
      · simp
      · simp [here]
      · rw [here, phase]
        simp only [main_goto, mainRank, Phase.rank]
        omega

theorem touch_of_kept {stage : Cleaning} {w : Worker} (there : s.workers i = some w) (kept : w.freed = false) :
    s.touch i stage = s := by
  simp [touch, there, kept]

theorem found_of_kept {w : Worker} (there : s.workers i = some w) (kept : w.freed = false) :
    s.found memory i main = main := by
  simp [Pool.found, there, kept]

/-- The rule for a step of `cleanup` that changes its worker. -/
theorem Course.Ordered.cleans {stage stage' : Cleaning} (ordered : c.Ordered memory)
    (here : c.main = .clean signalled i stage) (on : stage ≠ .destroy) (there : c.phases i ≠ .empty) (phase : Phase)
    (main : t.main = .clean signalled i stage')
    (worker : t.workers i = phase.worker (memory.held i)) (thread : t.threads i = phase.thread)
    (others : ∀ j ≠ i, t.workers j = (c.pool memory).workers j ∧ t.threads j = (c.pool memory).threads j)
    (stale : t.stale = c.stale) (allowed : phase.Allowed t.main i) (joined : phase = .joined → stage' = .destroy)
    (lower : mainRank t.main + phase.rank < mainRank c.main + (c.phases i).rank) : Leads memory c t := by
  refine ordered.enters i phase (inside_of_phase ordered there) worker thread others stale allowed ?_ ?_ ?_ ?_ lower
  · intro j other old
    rw [here, main]
    exact allowed_clean other
  · intro _ j done
    cases here.symm.trans done
    exact absurd rfl on
  · intro last
    exact ⟨signalled, by rw [main, joined last]⟩
  · simp [here, main]

/-- `cleanup` goes on to a worker, past one that is not there, or to its end. -/
theorem leads_test (ordered : c.Ordered memory) (here : c.main = .clean signalled i .test)
    (run : (c.pool memory).runMain memory = some t) : Leads memory c t := by
  have phase := ordered.allowed i
  rw [here] at phase
  simp only [Phase.Allowed, Nat.lt_irrefl, if_false] at phase
  unfold runMain at run
  rw [show (c.pool memory).main = _ from here] at run
  simp only at run
  by_cases more : i < NTHREADS
  · rw [if_pos more] at run
    cases run
    rcases phase with empty | waiting
    · refine ordered.goes (.clean signalled (i + 1) .test) [] ?_ ?_ ?_ ?_ ?_ ?_
      · simp [goto, Course.pool, empty, Phase.worker]
      · intro j allowed _
        rw [here] at allowed
        simp only [Phase.Allowed] at allowed ⊢
        split_ifs at allowed ⊢ <;> first | exact allowed | grind
      · simp
      · simp [here]
      · exact ordered.kept.goes (by simp [here]) (by simp)
      · rw [here]
        simp only [mainRank]
        omega
    · refine ordered.goes (.clean signalled i .flag) [] ?_ ?_ ?_ ?_ ?_ ?_
      · simp [goto, Course.pool, waiting, Phase.worker]
      · intro j allowed _
        rw [here] at allowed
        simp only [Phase.Allowed] at allowed ⊢
        split_ifs at allowed ⊢ <;> first | exact allowed | grind
      · simp
      · simp [here]
      · exact ordered.kept.goes (by simp [here]) (by simp)
      · rw [here]
        simp [mainRank]
  · rw [if_neg more] at run
    cases run
    refine ordered.goes .ended [] ?_ ?_ ?_ ?_ ?_ ?_
    · simp [goto, Course.pool]
    · intro j allowed outside
      rw [here] at allowed
      simp only [Phase.Allowed] at allowed ⊢
      split_ifs at allowed with before
      · exact allowed
      all_goals exact .inl (outside (by omega))
    · simp
    · simp [here]
    · exact ordered.kept.goes (by simp [here]) (by simp)
    · rw [here]
      simp [mainRank]

/-- `cleanup` reads the thread from a record that may have been freed. -/
theorem leads_read (ordered : c.Ordered memory) (here : c.main = .clean signalled i .read)
    (run : (c.pool memory).runMain memory = some t) : Leads memory c t := by
  have phase := ordered.allowed i
  rw [here] at phase
  simp only [Phase.Allowed, Nat.lt_irrefl, if_false] at phase
  unfold runMain at run
  rw [show (c.pool memory).main = _ from here] at run
  cases run
  have made : ((c.pool memory).workers i).any Worker.thread = true := by
    rcases phase with phase | phase | phase | phase <;> simp [phase, Phase.worker]
  refine ordered.goes ((c.pool memory).found memory i (.clean signalled i .join))
    (if ((c.pool memory).workers i).any Worker.freed then [(i, .read)] else []) ?_ ?_ ?_ ?_ ?_ ?_
  · rw [if_pos made, touch, goto, apply_ite (c.stale ++ ·), List.append_nil]
    rfl
  · intro j allowed _
    refine allowed_found here allowed ?_
    rw [here] at allowed
    simpa only [Phase.Allowed] using allowed
  · intro m mem
    split_ifs at mem <;> simp_all
  · simp [here]
  · have kept : Kept memory ((c.pool memory).found memory i (.clean signalled i .join)) _ :=
      ordered.kept.found (by simp [here]) (by simp) .read
    rwa [stale_touch] at kept
  · refine Nat.lt_of_le_of_lt mainRank_found ?_
    rw [here]
    simp [mainRank]

/-- `cleanup` destroys the semaphore in a record that has been freed. -/
theorem leads_destroy (ordered : c.Ordered memory) (here : c.main = .clean signalled i .destroy)
    (run : (c.pool memory).runMain memory = some t) : Leads memory c t := by
  have phase := ordered.allowed i
  rw [here] at phase
  simp only [Phase.Allowed, Nat.lt_irrefl, if_false] at phase
  unfold runMain at run
  rw [show (c.pool memory).main = _ from here] at run
  cases run
  have inside := inside_of_phase ordered (i := i) (by simp [phase])
  have freed : ((c.pool memory).workers i).any Worker.freed = true := freed_iff.mpr (.inr phase)
  refine ordered.goes ((c.pool memory).found memory i (.clean signalled (i + 1) .test)) [(i, .destroy)]
    ?_ ?_ ?_ ?_ ?_ ?_
  · simp [touch, goto, Course.pool, phase, Phase.worker]
  · intro j allowed _
    refine allowed_found here allowed ?_
    rw [here] at allowed
    simp only [Phase.Allowed] at allowed ⊢
    split_ifs at allowed ⊢ <;> first | exact allowed | grind
  · simp
  · rw [here]
    simp only [MainPc.clean.injEq, List.mem_singleton, Prod.mk.injEq]
    rintro _ j ⟨-, rfl, -⟩
    exact ⟨rfl, trivial⟩
  · have kept : Kept memory ((c.pool memory).found memory i (.clean signalled (i + 1) .test)) _ :=
      ordered.kept.found (by simp [here]) (by simp) .destroy
    rwa [stale_touch, if_pos freed] at kept
  · refine Nat.lt_of_le_of_lt mainRank_found ?_
    rw [here]
    simp only [mainRank]
    omega

/-- In `cleanup`, the main thread leads from one course to another. -/
theorem leads_clean (ordered : c.Ordered memory) {stage : Cleaning} (here : c.main = .clean signalled i stage)
    (run : (c.pool memory).runMain memory = some t) : Leads memory c t := by
  have phase := ordered.allowed i
  rw [here] at phase
  simp only [Phase.Allowed, Nat.lt_irrefl, if_false] at phase
  have ran := run
  unfold runMain at run
  rw [show (c.pool memory).main = _ from here] at run
  cases stage with
  | test => exact leads_test ordered here ran
  | read => exact leads_read ordered here ran
  | destroy => exact leads_destroy ordered here ran
  | flag =>
      simp only at run phase
      have there : (c.pool memory).workers i = some ⟨false, (memory.held i).2, some 0, true, false⟩ := by
        simp [phase, Phase.worker]
      rw [touch_of_kept there rfl, found_of_kept there rfl] at run
      cases run
      refine ordered.cleans here (by simp) (by simp [phase]) .flagged rfl ?_ ?_ ?_ rfl ?_ (by simp) ?_
      · simp [Phase.worker, phase]
      · simp [Phase.thread, phase]
      · intro j other
        simp [other]
      · simp [Phase.Allowed]
      · rw [here, phase]
        simp [mainRank, Phase.rank]
  | post =>
      simp only at run phase
      have there : (c.pool memory).workers i = some ⟨true, (memory.held i).2, some 0, true, false⟩ := by
        simp [phase, Phase.worker]
      simp only [there, Option.bind_some, touch_of_kept there rfl, found_of_kept there rfl] at run
      cases run
      refine ordered.cleans here (by simp) (by simp [phase]) .posted rfl ?_ ?_ ?_ rfl ?_ (by simp) ?_
      · simp [Phase.worker, phase]
      · simp [Phase.thread, phase]
      · intro j other
        simp [other]
      · simp [Phase.Allowed]
      · rw [here, phase]
        simp [mainRank, Phase.rank]
  | join =>
      simp only at run phase
      rcases phase with phase | phase | phase | phase
      case inr.inr.inr =>
        simp only [threads_pool, phase, Phase.thread] at run
        cases run
        refine ordered.cleans here (by simp) (by simp [phase]) .joined rfl ?_ ?_ ?_ rfl ?_ (by simp) ?_
        · simp [Phase.worker, phase]
        · simp [Phase.thread]
        · intro j other
          simp [other]
        · simp [Phase.Allowed]
        · rw [here, phase]
          simp [mainRank, Phase.rank]
      all_goals simp [phase, Phase.thread] at run

/-- What a thread does on its own the main thread waits for. -/
theorem allowed_later (going : old = .posted ∨ old = .checked ∨ old = .leaving)
    (later : phase = .checked ∨ phase = .leaving ∨ phase = .left) (allowed : old.Allowed main i) :
    phase.Allowed main i := by
  cases main with
  | create k stage =>
      simp only [Phase.Allowed] at allowed
      split_ifs at allowed
      · simp [allowed] at going
      · simp [allowed] at going
      · cases stage <;> simp [allowed] at going
  | serve => rcases allowed with rfl | rfl <;> simp at going
  | clean signalled k stage =>
      simp only [Phase.Allowed] at allowed ⊢
      split_ifs at allowed ⊢
      · rcases allowed with rfl | rfl <;> simp at going
      · rcases allowed with rfl | rfl <;> simp at going
      · cases stage
        case read | join => exact .inr later
        case test => rcases allowed with rfl | rfl <;> simp at going
        all_goals simp [allowed] at going
  | ended => rcases allowed with rfl | rfl <;> simp at going
  | undefined => rcases allowed with rfl | rfl | rfl | rfl <;> simp at going

/-- The rule for a step of a thread. -/
theorem Course.Ordered.turns (ordered : c.Ordered memory) (i : Nat) (phase : Phase)
    (going : c.phases i = .posted ∨ c.phases i = .checked ∨ c.phases i = .leaving)
    (later : phase = .checked ∨ phase = .leaving ∨ phase = .left) (lower : phase.rank < (c.phases i).rank)
    (worker : t.workers i = phase.worker (memory.held i)) (thread : t.threads i = phase.thread)
    (others : ∀ j ≠ i, t.workers j = (c.pool memory).workers j ∧ t.threads j = (c.pool memory).threads j)
    (main : t.main = c.main) (stale : t.stale = c.stale) : Leads memory c t := by
  have inside : i < NTHREADS := inside_of_phase ordered (by rcases going with h | h | h <;> simp [h])
  refine ordered.enters i phase inside worker thread others stale ?_ ?_ ?_ ?_ ?_ ?_
  · rw [main]
    exact allowed_later going later (ordered.allowed i)
  · intro j _ phase allowed
    rwa [main]
  · intro _ _ _
    exact main
  · rintro rfl
    simp at later
  · rw [main]
  · rw [main]
    omega

/-- A thread leads from one course to another. -/
theorem leads_worker (ordered : c.Ordered memory) (run : (c.pool memory).runWorker i = some t) : Leads memory c t := by
  unfold runWorker at run
  simp only [workers_pool, threads_pool] at run
  cases phase : c.phases i <;> simp only [phase, Phase.worker, Phase.thread] at run
  case posted =>
    cases run
    refine ordered.turns i .checked (by simp [phase]) (by simp) (by simp [phase, Phase.rank]) ?_ ?_ ?_ rfl rfl
    · simp [Phase.worker, phase]
    · simp [Phase.thread]
    · intro j other
      simp [other]
  case checked =>
    cases run
    refine ordered.turns i .leaving (by simp [phase]) (by simp) (by simp [phase, Phase.rank]) ?_ ?_ ?_ rfl rfl
    · simp [Phase.worker, phase]
    · simp [Phase.thread]
    · intro j other
      simp [other]
  case leaving =>
    cases run
    refine ordered.turns i .left (by simp [phase]) (by simp) (by simp [phase, Phase.rank]) ?_ ?_ ?_ rfl rfl
    · simp [Phase.worker, phase]
    · simp [Phase.thread]
    · intro j other
      simp [other]
  all_goals cases run

/-- `cleanup` is called between two workers, or when all are made. -/
theorem leads_cleanup (ordered : c.Ordered memory) (signalled : Bool)
    (calm : c.main = .serve ∨ ∃ i, c.main = .create i .malloc)
    (called : t = (c.pool memory).goto (.clean signalled 0 .test)) : Leads memory c t := by
  refine ordered.goes (.clean signalled 0 .test) [] ?_ ?_ ?_ ?_ ?_ ?_
  · simp [called, goto, Course.pool]
  · intro j allowed _
    rcases calm with serving | ⟨i, making⟩
    · rw [serving] at allowed
      simpa [Phase.Allowed] using allowed
    · rw [making] at allowed
      simp only [Phase.Allowed] at allowed ⊢
      split_ifs at allowed ⊢ <;> first | omega | simp [allowed]
  · simp
  · rcases calm with serving | ⟨i, making⟩
    · simp [serving]
    · simp [making]
  · refine ordered.kept.goes ?_ (by simp)
    rcases calm with serving | ⟨i, making⟩
    · simp [serving]
    · simp [making]
  · rcases calm with serving | ⟨i, making⟩
    · rw [serving]
      simp only [mainRank]
      omega
    · rw [making]
      simp only [mainRank]
      omega

/-- Every calm step leads from one course to another, with less to come. -/
theorem leads_calmStep (ordered : c.Ordered memory) (step : CalmStep memory (c.pool memory) t) : Leads memory c t := by
  obtain ⟨a, acted, calmly⟩ := step
  cases a with
  | main =>
      cases here : c.main with
      | create i stage => exact leads_create ordered here acted
      | clean signalled i stage => exact leads_clean ordered here acted
      | serve => simp [act, runMain, Course.pool, here] at acted
      | ended => simp [act, runMain, Course.pool, here] at acted
      | undefined => simp [act, runMain, Course.pool, here] at acted
  | worker i => exact leads_worker ordered acted
  | refuse => exact calmly.elim
  | exit =>
      have serving : c.main = .serve := by
        by_contra other
        simp [act, Course.pool, other] at acted
      exact leads_cleanup ordered false (.inl serving) (by simpa [act, Course.pool, serving] using acted.symm)
  | signal =>
      refine leads_cleanup ordered true calmly ?_
      rcases calmly with serving | ⟨i, making⟩
      · simpa [act, serving] using acted.symm
      · simpa [act, making] using acted.symm

/-- A calm step is possible until the process is over, or has no meaning any more. -/
theorem ended_of_stuck (ordered : c.Ordered memory) (stuck : Transition.Stuck (CalmStep memory) (c.pool memory)) :
    c.main = .ended ∨ c.main = .undefined := by
  have idle : (c.pool memory).runMain memory = none := by
    by_contra some
    obtain ⟨t, run⟩ := Option.ne_none_iff_exists'.mp some
    exact stuck t ⟨.main, run, trivial⟩
  have resting : ∀ i, (c.pool memory).runWorker i = none := by
    intro i
    by_contra some
    obtain ⟨t, run⟩ := Option.ne_none_iff_exists'.mp some
    exact stuck t ⟨.worker i, run, trivial⟩
  cases here : c.main with
  | ended => exact .inl rfl
  | undefined => exact .inr rfl
  | serve => exact (stuck ((c.pool memory).goto (.clean false 0 .test)) ⟨.exit, if_pos here, trivial⟩).elim
  | create i stage =>
      have main : (c.pool memory).main = .create i stage := here
      unfold runMain at idle
      rw [main] at idle
      cases stage <;> simp only [reduceCtorEq] at idle
      split_ifs at idle
  | clean signalled i stage =>
      have main : (c.pool memory).main = .clean signalled i stage := here
      have phase := ordered.allowed i
      rw [here] at phase
      simp only [Phase.Allowed, Nat.lt_irrefl, if_false] at phase
      unfold runMain at idle
      rw [main] at idle
      cases stage with
      | test =>
          simp only at idle
          split_ifs at idle
      | flag => cases idle
      | post =>
          simp only at phase
          simp [phase, Phase.worker] at idle
      | read => cases idle
      | join =>
          have rest := resting i
          unfold runWorker at rest
          simp only [workers_pool, threads_pool] at rest idle
          rcases phase with phase | phase | phase | phase <;> simp [phase, Phase.worker, Phase.thread] at rest idle
      | destroy => cases idle

end Calm

/-- What is left of a pool whose process has ended: each worker that was made has left its
loop, freed its record and been joined, and `cleanup` has then destroyed the semaphore in the
freed record. -/
def Finished (s : Pool) : Prop :=
  s.main = .ended ∧ ∀ i w, s.workers i = some w → s.threads i = .joined ∧ w.freed = true ∧ (i, .destroy) ∈ s.stale

section Idle

variable {memory : Heap} {s t : Pool} {i j : Nat}

/-- Nobody is woken but to end: the semaphore of a worker is posted, and its thread past the
wait, only where the worker is to terminate. -/
structure Unasked (s : Pool) (j : Nat) : Prop where
  posted : ∀ w k, s.workers j = some w → w.workSem = some (k + 1) → w.terminated = true
  woken : s.threads j = .check → ∃ w, s.workers j = some w ∧ w.terminated = true
  idle : s.threads j ≠ .func ∧ s.threads j ≠ .task
  posting : ∀ signalled, s.main = .clean signalled j .post → ∀ w, s.workers j = some w → w.terminated = true
  unmade : ∀ i stage, s.main = .create i stage → i ≤ j → s.threads j = .absent
  bare : s.main = .create j .fields → ∀ w, s.workers j = some w → w.workSem = none

theorem unasked_runMain (before : s.Unasked j) (run : s.runMain memory = some t) : t.Unasked j := by
  obtain ⟨posted, woken, idle, posting, unmade, bare⟩ := before
  unfold runMain at run
  cases main : s.main with
  | create i stage =>
      rw [main] at run
      cases stage with
      | malloc =>
          simp only at run
          split_ifs at run <;> cases run <;> constructor <;> simp <;> grind [Option.map_eq_some_iff]
      | fields => cases run; constructor <;> simp <;> grind [Option.map_eq_some_iff]
      | semInit => cases run; constructor <;> simp <;> grind [Option.map_eq_some_iff]
      | spawn => cases run; constructor <;> simp <;> grind [Option.map_eq_some_iff]
  | serve => rw [main] at run; cases run
  | clean signalled i stage =>
      rw [main] at run
      cases stage with
      | test => simp only at run; split_ifs at run <;> cases run <;> constructor <;> simp <;> grind [Option.map_eq_some_iff, found]
      | flag => cases run; constructor <;> simp <;> grind [Option.map_eq_some_iff, found]
      | post => simp only at run; split at run <;> cases run <;> constructor <;> simp <;> grind [Option.map_eq_some_iff, found]
      | read => cases run; constructor <;> simp <;> grind [Option.map_eq_some_iff, found]
      | join => simp only at run; split at run <;> cases run <;> constructor <;> simp <;> grind [Option.map_eq_some_iff, found]
      | destroy => cases run; constructor <;> simp <;> grind [Option.map_eq_some_iff, found]
  | ended => rw [main] at run; cases run
  | undefined => rw [main] at run; cases run

theorem unasked_runWorker (before : s.Unasked j) (run : s.runWorker i = some t) : t.Unasked j := by
  obtain ⟨posted, woken, idle, posting, unmade, bare⟩ := before
  unfold runWorker at run
  split at run
  · split at run
    · cases run
      constructor <;> simp <;> grind [Option.map_eq_some_iff]
    · cases run
  all_goals cases run
  all_goals constructor <;> simp <;> grind [Option.map_eq_some_iff]

theorem unasked_goto (before : s.Unasked j) {main : MainPc} (outside : ∀ signalled, main ≠ .clean signalled j .post)
    (next : ∀ i stage, main = .create i stage → stage = .malloc ∧ ∃ k stage, s.main = .create k stage ∧ k ≤ i) :
    (s.goto main).Unasked j where
  posted := before.posted
  woken := before.woken
  idle := before.idle
  posting signalled here := absurd here (outside signalled)
  unmade i stage here along := by
    obtain ⟨-, k, stage, making, le⟩ := next i stage here
    exact before.unmade k stage making (Nat.le_trans le along)
  bare here := by
    cases (next j .fields here).1

theorem unasked_step (before : s.Unasked j) (step : Step memory s t) : t.Unasked j := by
  obtain ⟨a, acted⟩ := step
  cases a with
  | main => exact unasked_runMain before acted
  | worker i => exact unasked_runWorker before acted
  | refuse =>
      simp only [act] at acted
      split at acted
      · rename_i i making
        cases acted
        refine unasked_goto before (by simp) fun k stage here => ?_
        cases here
        exact ⟨rfl, i, .spawn, making, Nat.le_succ i⟩
      · cases acted
  | exit =>
      simp only [act] at acted
      split_ifs at acted
      cases acted
      exact unasked_goto before (by simp) (by simp)
  | signal =>
      simp only [act] at acted
      split at acted
      case h_4 => cases acted
      all_goals
        cases acted
        exact unasked_goto before (by simp) (by simp)

end Idle

/-- Whatever fails and whenever signals come, in no order of steps does a worker get to the
task nobody assigns: a thread that is past its wait finds that it is to terminate. -/
theorem task_unreached (memory : Heap) {s : Pool} (reach : Reachable (Step memory) start s) (i : Nat) :
    s.threads i ≠ .func ∧ s.threads i ≠ .task ∧
      (s.threads i = .check → ∃ w, s.workers i = some w ∧ w.terminated = true) := by
  have unasked : s.Unasked i := by
    refine reachable_invariant (fun s => s.Unasked i) reach ?_ fun s t before step => unasked_step before step
    constructor <;> simp [start]
  exact ⟨unasked.idle.1, unasked.idle.2, unasked.woken⟩

/-- A signal in the middle of the making of the second worker: the first one is woken to end,
and not for a task, though its field `func` is a pointer. -/
theorem task_unreached_signal :
    ∃ s, Reachable (Step ⟨fun _ => (true, true), fun _ => true⟩) start s ∧ s.threads 0 = .check ∧
      s.threads 0 ≠ .task ∧ ∃ w, s.workers 0 = some w ∧ w.terminated = true ∧ w.func = true := by
  have made : Reachable (Step ⟨fun _ => (true, true), fun _ => true⟩) start _ :=
    ((((Relation.ReflTransGen.refl.tail ⟨.main, rfl⟩).tail ⟨.main, rfl⟩).tail ⟨.main, rfl⟩).tail ⟨.main, rfl⟩)
  have signalled := (made.tail ⟨.main, rfl⟩).tail ⟨.signal, rfl⟩
  have woken := (((signalled.tail ⟨.main, rfl⟩).tail ⟨.main, rfl⟩).tail ⟨.main, rfl⟩).tail ⟨.worker 0, rfl⟩
  obtain ⟨-, unasked, terminating⟩ := task_unreached _ woken 0
  obtain ⟨w, there, terminated⟩ := terminating rfl
  refine ⟨_, woken, rfl, unasked, w, there, terminated, ?_⟩
  cases there
  rfl

end Pool

end MiniDropbox
