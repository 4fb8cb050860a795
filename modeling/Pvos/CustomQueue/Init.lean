import Pvos.CustomQueue.Ring

/-!
# Concurrent initialisation: `MQueue::init_queue`

Processes open or create the objects of one queue name: a shared memory object
and three named semaphores.  Every system call of `open_shm` and `init_queue`
is one step; a process whose `init_queue` has returned `0` goes on with calls
of `send` and `recv`.  Nothing is ever unlinked, so a name always denotes the
same object.

Opening a name with `O_CREAT` creates a semaphore of value `1` only when none
exists; `sem_init` overwrites the value of the semaphore behind the handle.
Touching the mapping while the object has size `0`, or using the handle
`SEM_FAILED`, ends the process.
-/

namespace Pvos.CustomQueue

open Pvos.Support

/-- The objects of one queue name: the size of the shared memory object, if it
exists, which semaphores exist, and their contents. -/
structure Kernel where
  shmSize : Option ℕ
  hasFull : Bool
  hasEmpty : Bool
  hasMutex : Bool
  ring : Ring

/-- The next system call of `init_queue`; `failed` after a return of `-1`,
`ready` after a return of `0`. -/
inductive InitPc
  | shmOpen
  | shmCreate
  | ftruncate
  | mmap
  | checkMap
  | openFull
  | createFull
  | initFull
  | createEmpty
  | initEmpty
  | createMutex
  | initMutex
  | openEmpty
  | openMutex
  | failed
  | ready
  deriving DecidableEq

/-- A process: its place in `init_queue`, whether `mmap` succeeded, which of
its semaphore handles are valid, its place in `send` or `recv` once the queue
is ready, and whether it still runs. -/
structure InitLocal where
  pc : InitPc
  msgdata : Bool
  semFull : Bool
  semEmpty : Bool
  semMutex : Bool
  op : OpLocal
  alive : Bool

/-- What the environment decides: whether the next system call fails for a
reason of its own, and which operation is called next. -/
structure InitChoice where
  fails : Bool
  call : Call

/-- `SEM_VALUE_MAX`. -/
def semValueMax : ℕ := 2 ^ 31 - 1

/-- The value of a `sem_init` argument of type `unsigned int`. -/
def semInitValue (n : ℕ) : ℕ :=
  n % uintModulus

/-- Whether `sem_init` accepts its value. -/
def semInitAccepts (n : ℕ) : Bool :=
  decide (semInitValue n ≤ semValueMax)

/-- The value behind a name after `sem_open` with `O_CREAT` and value `1`. -/
def createdValue (present : Bool) (value : ℕ) : ℕ :=
  if present then value else 1

/-- Whether the mapping can be touched. -/
def Kernel.mapped (k : Kernel) : Bool :=
  match k.shmSize with
  | none => false
  | some size => decide (0 < size)

/-- The statement touches the shared `Queue`. -/
def OpPc.touchesData : OpPc → Bool
  | .sendCopy _ | .sendRear | .recvCopy | .recvFront => true
  | _ => false

/-- The handle the statement uses is valid. -/
def InitLocal.handleValid (l : InitLocal) : Bool :=
  match l.op.pc with
  | .sendWaitFull _ | .recvPostFull => l.semFull
  | .sendPostEmpty | .recvWaitEmpty => l.semEmpty
  | .sendWaitMutex _ | .sendPostMutex => l.semMutex
  | .recvWaitMutex | .recvPostMutex => l.semMutex
  | _ => true

/-- `open_shm`: the two calls of `shm_open` and `ftruncate`. -/
def openShm (q : MQueue) (fails : Bool) (k : Kernel) : InitPc →
    Option (Kernel × InitPc)
  | .shmOpen =>
      if fails then some (k, .failed)
      else if k.shmSize.isSome then some (k, .mmap)
      else some (k, .shmCreate)
  | .shmCreate =>
      if fails then some (k, .failed)
      else
        -- `O_TRUNC` empties an object another process has created meanwhile
        some ({ k with
          shmSize := some 0
          ring := { k.ring with front := 0, rear := 0, data := fun _ => 0 } },
          .ftruncate)
  | .ftruncate =>
      if fails then some (k, .failed)
      else some ({ k with shmSize := some q.mappedSize }, .mmap)
  | _ => none

/-- `init_queue`: the next system call of a process. -/
def initQueue (q : MQueue) (fails : Bool) (k : Kernel) (l : InitLocal) :
    Option (Kernel × InitLocal) :=
  match l.pc with
  | .shmOpen | .shmCreate | .ftruncate =>
      (openShm q fails k l.pc).map fun (k', pc') => (k', { l with pc := pc' })
  | .mmap => some (k, { l with pc := .checkMap, msgdata := !fails })
  | .checkMap =>
      -- the test reads `front` through the pointer `mmap` returned
      if l.msgdata && k.mapped then
        if k.ring.front = uintModulus - 1 then some (k, { l with pc := .failed })
        else some (k, { l with pc := .openFull })
      else some (k, { l with alive := false })
  | .openFull =>
      if fails then some (k, { l with pc := .failed })
      else if k.hasFull then some (k, { l with pc := .openEmpty, semFull := true })
      else some (k, { l with pc := .createFull })
  | .createFull =>
      if fails then some (k, { l with pc := .failed })
      else
        some ({ k with
          hasFull := true
          ring := { k.ring with
            semFull := createdValue k.hasFull k.ring.semFull } },
          { l with pc := .initFull, semFull := true })
  | .initFull =>
      if fails || !semInitAccepts q.cap then some (k, { l with pc := .failed })
      else
        some ({ k with ring := { k.ring with semFull := semInitValue q.cap } },
          { l with pc := .createEmpty })
  | .createEmpty =>
      if fails then some (k, { l with pc := .failed })
      else
        some ({ k with
          hasEmpty := true
          ring := { k.ring with
            semEmpty := createdValue k.hasEmpty k.ring.semEmpty } },
          { l with pc := .initEmpty, semEmpty := true })
  | .initEmpty =>
      if fails then some (k, { l with pc := .failed })
      else
        some ({ k with ring := { k.ring with semEmpty := 0 } },
          { l with pc := .createMutex })
  | .createMutex =>
      if fails then some (k, { l with pc := .failed })
      else
        some ({ k with
          hasMutex := true
          ring := { k.ring with
            semMutex := createdValue k.hasMutex k.ring.semMutex } },
          { l with pc := .initMutex, semMutex := true })
  | .initMutex =>
      if fails then some (k, { l with pc := .failed })
      else
        some ({ k with ring := { k.ring with semMutex := 1 } },
          { l with pc := .ready })
  -- the two results of the branch for an existing queue are not checked
  | .openEmpty =>
      some (k, { l with pc := .openMutex, semEmpty := !fails && k.hasEmpty })
  | .openMutex =>
      some (k, { l with pc := .ready, semMutex := !fails && k.hasMutex })
  | .failed | .ready => none

/-- A statement of `send` or `recv` of a process whose queue is ready. -/
def useQueue (q : MQueue) (call : Call) (k : Kernel) (l : InitLocal) :
    Option (Kernel × InitLocal) :=
  if l.handleValid && (!l.op.pc.touchesData || k.mapped) then
    (opStep q call k.ring l.op).map fun (g, op, _) =>
      ({ k with ring := g }, { l with op := op })
  else some (k, { l with alive := false })

/-- The next step of a process. -/
def initProc (q : MQueue) (c : InitChoice) (k : Kernel) (l : InitLocal) :
    Option (Kernel × InitLocal × List RingEvent) :=
  if l.alive then
    let next :=
      if l.pc = .ready then useQueue q c.call k l else initQueue q c.fails k l
    next.map fun (k', l') => (k', l', [])
  else none

/-- The processes that initialise and then use one queue. -/
def initProgram (P : Type*) (q : MQueue) :
    Program P InitChoice Kernel InitLocal RingEvent where
  proc _ := initProc q

/-- A process before its first system call. -/
def InitLocal.start (msgbuf : Memory) : InitLocal where
  pc := .shmOpen
  msgdata := false
  semFull := false
  semEmpty := false
  semMutex := false
  op := ⟨.idle, msgbuf⟩
  alive := true

/-- No object of the name exists and no process has made a system call. -/
def NothingExists {P : Type*} (s : Config P Kernel InitLocal) : Prop :=
  s.shared.shmSize = none ∧ s.shared.hasFull = false ∧
    s.shared.hasEmpty = false ∧ s.shared.hasMutex = false ∧
    ∀ p, ∃ msgbuf, s.loc p = InitLocal.start msgbuf

/-- All interleavings of the system calls and operations on one queue name. -/
def initSystem (P : Type*) [DecidableEq P] (q : MQueue) :
    System (Config P Kernel InitLocal) RingEvent :=
  (initProgram P q).system NothingExists

/-- All three handles of the process are valid. -/
def InitLocal.HandlesValid (l : InitLocal) : Prop :=
  l.semFull = true ∧ l.semEmpty = true ∧ l.semMutex = true

/-- Some `init_queue` has returned `0`. -/
def SomeReady {P : Type*} (s : Config P Kernel InitLocal) : Prop :=
  ∃ p, (s.loc p).pc = .ready

/-- The permits of a queue in use balance. -/
def Balanced {P : Type*} [Fintype P] (q : MQueue)
    (s : Config P Kernel InitLocal) : Prop :=
  s.shared.ring.semFull + s.shared.ring.semEmpty +
      total (fun l => l.op.pc.inFlight) s.loc = q.cap ∧
    s.shared.ring.semMutex + total (fun l => l.op.pc.holdsMutex) s.loc = 1

/-- Processes whose `init_queue` returned `0` have valid handles, and from the
first such return on the permits balance. -/
structure InitSafe {P : Type*} [Fintype P] (q : MQueue)
    (s : Config P Kernel InitLocal) : Prop where
  handles : ∀ p, (s.loc p).pc = .ready → (s.loc p).HandlesValid
  balanced : SomeReady s → Balanced q s

end Pvos.CustomQueue
