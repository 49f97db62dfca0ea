import Cush.Kernel
import Cush.Spawn.FileActions

/-!
# Starting a process (`spawni.c`)

`__spawnix` clones the caller into a child that shares its memory, and is suspended until the child
calls `exec` or exits. The child sets itself up call by call. Each call can be the last one, if the
child is killed, and many can fail for reasons outside the process: `Answers` says which. What the
child is like at each of its calls is kept in a log.
-/

namespace Cush.Spawni

abbrev Errno := Nat

def EPERM : Errno := 1
def E2BIG : Errno := 7
def EBADF : Errno := 9
def ECHILD : Errno := 10
def EINVAL : Errno := 22
def EMFILE : Errno := 24

/-! ## Signals -/

def SIGKILL : Nat := 9
def SIGCHLD : Nat := 17
def SIGSTOP : Nat := 19
def SIGTTOU : Nat := 22
def NSIG : Nat := 65

/-- The signals that are neither blocked nor handled: two by POSIX, and two that the C library keeps
for its threads. -/
def isReserved (sig : Nat) : Bool :=
  sig == SIGKILL || sig == SIGSTOP || sig == 32 || sig == 33

abbrev Sigset := Nat → Bool

def sigfillset : Sigset := fun sig => 1 ≤ sig && sig < NSIG

/-- The signals that a process blocks. -/
structure SignalMask where
  blocked : Sigset
  reserved : ∀ sig, isReserved sig → blocked sig = false

/-- `SIG_SETMASK`; what cannot be blocked is left out without an error. -/
def SignalMask.ofSet (set : Sigset) : SignalMask where
  blocked sig := set sig && !isReserved sig
  reserved sig h := by simp [h]

/-- `SIG_BLOCK` -/
def SignalMask.block (m : SignalMask) (set : Sigset) : SignalMask :=
  .ofSet fun sig => m.blocked sig || set sig

/-- `sa_handler` -/
inductive Handler where
  | dfl
  | ign
  | handler (f : Nat)
  deriving Repr, DecidableEq

structure SignalActions where
  get : Nat → Handler
  reserved : ∀ sig, isReserved sig → get sig = .dfl

/-- `sigaction`; none where the action cannot be set. -/
def SignalActions.set (acts : SignalActions) (sig : Nat) (h : Handler) : Option SignalActions :=
  if hr : isReserved sig then none
  else
    some
      { get := fun i => if i = sig then h else acts.get i
        reserved := fun i hi => by
          have hne : i ≠ sig := fun he => hr (he ▸ hi)
          rw [if_neg hne]
          exact acts.reserved i hi }

/-- What `exec` leaves: caught signals get their default action. -/
def SignalActions.exec (acts : SignalActions) : SignalActions where
  get sig := match acts.get sig with | .handler _ => .dfl | h => h
  reserved sig h := by rw [acts.reserved sig h]

/-! ## Attributes -/

abbrev Flags := BitVec 16

def POSIX_SPAWN_RESETIDS : Flags := 0x01
def POSIX_SPAWN_SETPGROUP : Flags := 0x02
def POSIX_SPAWN_SETSIGDEF : Flags := 0x04
def POSIX_SPAWN_SETSIGMASK : Flags := 0x08
def POSIX_SPAWN_SETSCHEDPARAM : Flags := 0x10
def POSIX_SPAWN_SETSCHEDULER : Flags := 0x20
def POSIX_SPAWN_USEVFORK : Flags := 0x40
def POSIX_SPAWN_SETSID : Flags := 0x80
def POSIX_SPAWN_TCSETPGROUP : Flags := 0x100

/-- `posix_spawnattr_t` -/
structure SpawnAttr where
  flags : Flags
  pgrp : Pid
  sd : Sigset
  ss : Sigset
  sp : Nat
  policy : Nat
  tcpgrp : Nat

/-- `posix_spawnattr_init` -/
def SpawnAttr.init : SpawnAttr :=
  { flags := 0, pgrp := 0, sd := fun _ => false, ss := fun _ => false, sp := 0, policy := 0,
    tcpgrp := 0 }

def SpawnAttr.has (attr : SpawnAttr) (flag : Flags) : Bool :=
  attr.flags &&& flag != 0

def ALL_FLAGS : Flags :=
  POSIX_SPAWN_RESETIDS ||| POSIX_SPAWN_SETPGROUP ||| POSIX_SPAWN_SETSIGDEF |||
    POSIX_SPAWN_SETSIGMASK ||| POSIX_SPAWN_SETSCHEDPARAM ||| POSIX_SPAWN_SETSCHEDULER |||
    POSIX_SPAWN_SETSID ||| POSIX_SPAWN_USEVFORK ||| POSIX_SPAWN_TCSETPGROUP

def posixSpawnattrSetflags (attr : SpawnAttr) (flags : Flags) : Errno × SpawnAttr :=
  if flags &&& ~~~ALL_FLAGS != 0 then (EINVAL, attr) else (0, { attr with flags })

/-- `posix_spawnattr_tcsetpgrp_np` -/
def posixSpawnattrTcsetpgrp (attr : SpawnAttr) (fd : Nat) : Errno × SpawnAttr :=
  (0, { attr with tcpgrp := fd })

/-- `posix_spawnattr_setpgroup` -/
def posixSpawnattrSetpgroup (attr : SpawnAttr) (pgrp : Pid) : Errno × SpawnAttr :=
  (0, { attr with pgrp })

/-! ## The child -/

/-- A working directory, as the changes that have led there. -/
inductive DirChange where
  | path (path : Word)
  | file (file : OpenFile)
  deriving Repr, DecidableEq

structure Task where
  pid : Pid
  pgid : Pid
  sid : Pid
  mask : SignalMask
  actions : SignalActions
  fds : FdTable OpenFile
  cwd : List DirChange
  uid : Nat
  euid : Nat
  gid : Nat
  egid : Nat
  policy : Nat
  param : Nat

/-- `errno` and `args.err` are in the memory that the child shares with the caller. -/
structure World where
  task : Task
  ttyPgrp : Pid
  errno : Errno
  err : Errno
  log : List Task

/-- What is outside the two processes. `fails` and `kills` are given the number of the call of the
child that would fail, or that the child is killed in. That another process stops the child is left
out: it goes on from there once it is continued. -/
structure Answers where
  mmap : Option Errno
  mmap_ne : mmap ≠ some 0
  clone : Except Errno Pid
  fails : Nat → Option Errno
  kills : Nat → Option Signal
  /-- the groups in the session -/
  group : Pid → Bool
  /-- `RLIMIT_NOFILE` -/
  nofile : Nat

inductive Stop where
  /-- `goto fail` -/
  | fail
  | execed
  | exited (code : Nat)
  | killed (sig : Signal)
  /-- stopped by the `SIGTTOU` of its own `tcsetpgrp`, with the caller suspended -/
  | stopped
  deriving Repr, DecidableEq

abbrev SpawnM := EStateM Stop World

variable (a : Answers)

/-- A call of the child begins; its number. -/
def enter : SpawnM Nat := do
  let w ← get
  set { w with log := w.log ++ [w.task] }
  match a.kills w.log.length with
  | some sig => throw (.killed sig)
  | none => return w.log.length

/-- A call that does not fail. -/
def perform (act : World → World) : SpawnM Unit := do
  let _ ← enter a
  modify act

/-- A call that may fail, and sets `errno` then; whether it has succeeded. -/
def attempt (act : World → Except Errno World) : SpawnM Bool := do
  let n ← enter a
  let w ← get
  match (a.fails n).elim (act w) .error with
  | .error e =>
    set { w with errno := e }
    return false
  | .ok w' =>
    set w'
    return true

/-- A change of the child's own attributes. -/
def World.modifyTask (w : World) (f : Task → Task) : World :=
  { w with task := f w.task }

def orFail (x : SpawnM Bool) : SpawnM Unit := do
  if !(← x) then throw .fail

def sigprocmask (m : SignalMask → SignalMask) : SpawnM Unit :=
  perform a fun w => w.modifyTask fun t => { t with mask := m t.mask }

def setSigaction (sig : Nat) (h : Handler) : SpawnM Unit :=
  perform a fun w =>
    match w.task.actions.set sig h with
    | some actions => w.modifyTask fun t => { t with actions }
    | none => { w with errno := EINVAL }

def resetSignal (attr : SpawnAttr) (hset : Sigset) (sig : Nat) : SpawnM Unit := do
  if attr.has POSIX_SPAWN_SETSIGDEF && attr.sd sig then setSigaction a sig .dfl
  else if hset sig then
    -- no signal counts as internal
    perform a id
    if (← get).task.actions.get sig = .ign then return ()
    setSigaction a sig .dfl

def resetSignals (attr : SpawnAttr) (hset : Sigset) : List Nat → SpawnM Unit
  | [] => return ()
  | sig :: sigs => do
    resetSignal a attr hset sig
    resetSignals attr hset sigs

def setScheduler (attr : SpawnAttr) : SpawnM Unit := do
  if attr.flags &&& (POSIX_SPAWN_SETSCHEDPARAM ||| POSIX_SPAWN_SETSCHEDULER) =
      POSIX_SPAWN_SETSCHEDPARAM then
    orFail (attempt a fun w => .ok (w.modifyTask fun t => { t with param := attr.sp }))
  else if attr.has POSIX_SPAWN_SETSCHEDULER then
    orFail (attempt a fun w =>
      .ok (w.modifyTask fun t => { t with policy := attr.policy, param := attr.sp }))

/-- The leader of a group cannot make a session. -/
def setsid : SpawnM Bool :=
  attempt a fun w =>
    if w.task.pgid = w.task.pid then .error EPERM
    else .ok (w.modifyTask fun t => { t with sid := t.pid, pgid := t.pid })

def setSession (attr : SpawnAttr) : SpawnM Unit :=
  if attr.has POSIX_SPAWN_SETSID then orFail (setsid a) else return ()

/-- `setpgid` of the child itself, which the leader of a session cannot do. -/
def setpgid (pgrp : Pid) : SpawnM Bool :=
  attempt a fun w =>
    if w.task.sid = w.task.pid ∨ pgrp ≠ 0 ∧ !a.group pgrp then .error EPERM
    else .ok (w.modifyTask fun t => { t with pgid := if pgrp = 0 then t.pid else pgrp })

def setGroup (attr : SpawnAttr) : SpawnM Unit :=
  if attr.has POSIX_SPAWN_SETPGROUP then orFail (setpgid a attr.pgrp) else return ()

/-- A process of a group in the background is stopped, unless it blocks or ignores `SIGTTOU`. -/
def tcsetpgrp (fd : Nat) (pgrp : Pid) : SpawnM Bool := do
  let w ← get
  if w.task.pgid ≠ w.ttyPgrp ∧ w.task.mask.blocked SIGTTOU = false ∧
      w.task.actions.get SIGTTOU ≠ .ign then
    throw .stopped
  attempt a fun w =>
    if (w.task.fds.get fd).isNone then .error EBADF else .ok { w with ttyPgrp := pgrp }

/-- The group is not asked for if it has just been set to a known one. -/
def setTerminal (attr : SpawnAttr) : SpawnM Unit :=
  if attr.has POSIX_SPAWN_TCSETPGROUP then
    if attr.has POSIX_SPAWN_SETPGROUP && attr.pgrp != 0 then
      orFail (tcsetpgrp a attr.tcpgrp attr.pgrp)
    else do
      perform a id
      orFail (tcsetpgrp a attr.tcpgrp (← get).task.pgid)
  else return ()

def resetIds (attr : SpawnAttr) : SpawnM Unit :=
  if attr.has POSIX_SPAWN_RESETIDS then do
    perform a id
    orFail (attempt a fun w => .ok (w.modifyTask fun t => { t with euid := t.uid }))
    perform a id
    orFail (attempt a fun w => .ok (w.modifyTask fun t => { t with egid := t.gid }))
  else return ()

/-! ## File actions -/

/-- `struct __spawn_action` -/
inductive SpawnAction where
  | close (fd : Nat)
  | open (fd : Nat) (path : Word) (oflag : OpenMode)
  | dup2 (fd newfd : Nat)
  | chdir (path : Word)
  | fchdir (fd : Nat)
  deriving Repr, DecidableEq

/-- The actions that `cush.c` adds. -/
def SpawnAction.ofFileAction : FileAction → SpawnAction
  | .open fd path oflag => .open fd path oflag
  | .dup2 fd newfd => .dup2 fd newfd

def World.setFds (w : World) (fds : FdTable OpenFile) : World :=
  w.modifyTask fun t => { t with fds }

/-- Whatever else goes wrong, the descriptor is closed. -/
def close (fd : Nat) : SpawnM Bool := do
  let n ← enter a
  let w ← get
  if (w.task.fds.get fd).isNone then
    set { w with errno := EBADF }
    return false
  let w := w.setFds (w.task.fds.close fd)
  match a.fails n with
  | some e =>
    set { w with errno := e }
    return false
  | none =>
    set w
    return true

/-- `dup2`, for two descriptors. -/
def dup2 (fd newfd : Nat) : SpawnM Bool :=
  attempt a fun w =>
    if a.nofile ≤ newfd then .error EBADF
    else
      match w.task.fds.dup2 fd newfd with
      | none => .error EBADF
      | some fds => .ok (w.setFds fds)

/-- `open` returns the lowest free descriptor; `cnt` is the position of the action. -/
def openFile (cnt : Nat) (path : Word) (oflag : OpenMode) : SpawnM (Option Nat) := do
  let ret := (← get).task.fds.firstFree 0
  let opened ← attempt a fun w =>
    if a.nofile ≤ ret then .error EMFILE
    else .ok (w.setFds (w.task.fds.openLowest (.opened path oflag cnt)).2)
  return if opened then some ret else none

/-- `fcntl` with `F_GETFD` and with `F_SETFD`. -/
def getFd (fd : Nat) : SpawnM Bool :=
  attempt a fun w => if (w.task.fds.get fd).isNone then .error EBADF else .ok w

def keepOnExec (fd : Nat) : SpawnM Bool :=
  attempt a fun w =>
    match w.task.fds.keepOnExec fd with
    | none => .error EBADF
    | some fds => .ok (w.setFds fds)

/-- `chdir` and `fchdir` -/
def changeDir (f : Task → Option DirChange) : SpawnM Bool :=
  attempt a fun w =>
    match f w.task with
    | none => .error EBADF
    | some dir => .ok (w.modifyTask fun t => { t with cwd := t.cwd ++ [dir] })

/-- `getrlimit` is called once. -/
def getFdlimit (haveFdlimit : Bool) : SpawnM Unit :=
  if haveFdlimit then return () else perform a id

/-- Only a descriptor out of range is an error. -/
def closeAction (haveFdlimit : Bool) (fd : Nat) : SpawnM Bool := do
  if ← close a fd then return haveFdlimit
  else
    getFdlimit a haveFdlimit
    if a.nofile ≤ fd then throw .fail else return true

/-- Make sure the desired file descriptor is used. -/
def moveFd (ret fd : Nat) : SpawnM Unit :=
  if ret = fd then return ()
  else do
    orFail (dup2 a ret fd)
    orFail (close a ret)

def openAction (cnt fd : Nat) (path : Word) (oflag : OpenMode) : SpawnM Unit := do
  let _ ← close a fd
  match ← openFile a cnt path oflag with
  | none => throw .fail
  | some ret => moveFd a ret fd

/-- A descriptor that is duplicated to itself loses its close-on-exec mark. -/
def dup2Action (fd newfd : Nat) : SpawnM Unit :=
  if fd = newfd then do
    orFail (getFd a newfd)
    orFail (keepOnExec a newfd)
  else orFail (dup2 a fd newfd)

/-- One action, with `have_fdlimit` before and after it. -/
def executeAction (cnt : Nat) (haveFdlimit : Bool) : SpawnAction → SpawnM Bool
  | .close fd => closeAction a haveFdlimit fd
  | .open fd path oflag => do
    openAction a cnt fd path oflag
    return haveFdlimit
  | .dup2 fd newfd => do
    dup2Action a fd newfd
    return haveFdlimit
  | .chdir path => do
    orFail (changeDir a fun _ => some (.path path))
    return haveFdlimit
  | .fchdir fd => do
    orFail (changeDir a fun t => (t.fds.file fd).map .file)
    return haveFdlimit

def executeActions (cnt : Nat) (haveFdlimit : Bool) : List SpawnAction → SpawnM Unit
  | [] => return ()
  | action :: actions => do
    let haveFdlimit ← executeAction a cnt haveFdlimit action
    executeActions (cnt + 1) haveFdlimit actions

/-! ## `__spawni_child` -/

/-- `struct posix_spawn_args`, as far as it does not change. -/
structure SpawnArgs where
  oldmask : SignalMask
  fa : Option (List SpawnAction)
  attr : SpawnAttr

/-- `execvpe`. It returns only if it fails. -/
def exec : SpawnM Unit := do
  let n ← enter a
  let w ← get
  match a.fails n with
  | some e => set { w with errno := e }
  | none =>
    set (w.modifyTask fun t => { t with fds := t.fds.exec, actions := t.actions.exec })
    throw .execed

/-- `__spawni_child` as far as all signals are blocked. -/
def setUpChild (args : SpawnArgs) : SpawnM Unit := do
  perform a id
  resetSignals a args.attr (← get).task.mask.blocked (List.range' 1 (NSIG - 1))
  setScheduler a args.attr
  setSession a args.attr
  setGroup a args.attr
  setTerminal a args.attr
  resetIds a args.attr
  match args.fa with
  | none => return ()
  | some actions => executeActions a 0 false actions

/-- Everything before the label `fail`; `maybe_script_execute` is compiled out. -/
def childBody (args : SpawnArgs) : SpawnM Unit := do
  setUpChild a args
  sigprocmask a fun _ =>
    if args.attr.has POSIX_SPAWN_SETSIGMASK then .ofSet args.attr.ss else args.oldmask
  exec a

def SPAWN_ERROR : Nat := 127

def childFail : SpawnM Unit := do
  modify fun w => { w with err := if w.errno ≠ 0 then w.errno else ECHILD }
  let _ ← enter a
  throw (.exited SPAWN_ERROR)

def spawniChild (args : SpawnArgs) : SpawnM Unit := do
  try childBody a args
  catch stop => if stop ≠ .fail then throw stop
  childFail a

/-! ## `__spawnix` -/

/-- The process that calls, its `errno` and its variable `*pid`. -/
structure Caller where
  task : Task
  ttyPgrp : Pid
  errno : Errno
  pid : Pid

/-- What is left when the call returns. A child that has not been waited for runs or is a zombie. -/
structure Spawned where
  ec : Errno
  caller : Caller
  child : Option (Task × ProcState)

/-- The child right after `clone`, for a caller that has blocked its signals. -/
def Caller.childTask (c : Caller) (newPid : Pid) : Task :=
  { c.task with pid := newPid, mask := c.task.mask.block sigfillset }

def Caller.world (c : Caller) (newPid : Pid) : World :=
  { task := c.childTask newPid, ttyPgrp := c.ttyPgrp, errno := c.errno, err := 0, log := [] }

def INT_MAX : Nat := 2147483647

/-- The count of the arguments with the null pointer behind them; none at the limit. -/
def argcLoop (limit : Nat) : Nat → List Word → Option Nat
  | argc, [] => some (argc + 1)
  | argc, _ :: argv => if argc + 1 = limit then none else argcLoop limit (argc + 1) argv

/-- What is left of a child that has ended in this way. -/
def leftOf (ec : Errno) : Stop → Option ProcState
  | .execed => some .running
  | .exited code => if 0 < ec then none else some (.zombie (.exited code))
  | .killed sig => if 0 < ec then none else some (.zombie (.signaled sig))
  | .fail | .stopped => none

/-- `__spawnix`; none where it does not return, because the child has not ended. -/
def spawnix (fa : Option (List SpawnAction)) (attrp : Option SpawnAttr) (argv : List Word)
    (c : Caller) : Option Spawned :=
  match argcLoop (INT_MAX - 1) 0 argv with
  | none => some { ec := E2BIG, caller := { c with errno := E2BIG }, child := none }
  | some _ =>
    match a.mmap with
    | some e => some { ec := e, caller := { c with errno := e }, child := none }
    | none =>
      let oldmask := c.task.mask
      -- the caller's mask once it has been restored
      let task := { c.task with mask := .ofSet oldmask.blocked }
      match a.clone with
      | .error e =>
        -- `clone` returns -1
        some { ec := 1, caller := { c with task, errno := e }, child := none }
      | .ok newPid =>
        match spawniChild a { oldmask, fa, attr := attrp.getD .init } (c.world newPid) with
        | .ok _ _ | .error .fail _ | .error .stopped _ => none
        | .error stop w =>
          let pid := if w.err = 0 then newPid else c.pid
          some
            { ec := w.err
              caller := { task, ttyPgrp := w.ttyPgrp, errno := w.errno, pid }
              child := (leftOf w.err stop).map fun st => (w.task, st) }

end Cush.Spawni
