import Cush.Shell.Job
import Cush.Grammar.Parse
import Cush.Spawn.SetUp

/-!
# The state of the shell

The shell is a process with a signal handler: its state is the point its main program has reached
(`Pc`), the handler that may have interrupted it, its data, and the part of the kernel's state it
depends on. A point stands for the code up to the next one at which something can come in between:
a signal, a change of a child, an answer of the kernel or of the user.

The last group of fields is not part of the program. It records what the properties of runs are
about: which pipelines have been freed, whether a freed one has been read, which have been
dispatched, and which jobs have had a process stop since the last `SIGCONT` of a builtin.
-/

namespace Cush

/-- What the shell prints. -/
inductive Output where
  | parseError (msg : ErrorMessage)
  | job (jid : Nat) (status : JobStatus) (cmdline : List Char)
  | jobDone (jid : Nat)
  | cmdline (text : List Char)
  | background (jid : Nat) (pgid : Pid)
  | idMissing (name : Word)
  | noSuchJob (name arg : Word)
  | noSuchFile (name : Word)
  | history (i : Nat) (line : List Char)
  | signaled (sig : Signal)
  deriving Repr, DecidableEq

/-- What `handle_child_status` prints for a process that was killed. -/
def signalText : Signal → String
  | .sigterm => "Terminated"
  | .sigkill => "killed"
  | .sigsegv => "segmentation fault"
  | .sigabrt => "Aborted"
  | .sigfpe => "floating point exception"
  | _ => ""

def Output.text : Output → List Char
  | .parseError msg => msg.text.toList ++ ['\n']
  | .job jid status text =>
    ("[" ++ toString jid ++ "]\t" ++ getStatus status ++ "\t\t(").toList ++ text ++ [')', '\n']
  | .jobDone jid => ("[" ++ toString jid ++ "]\t" ++ getStatus .done ++ "\t\t\n").toList
  | .cmdline text => text ++ ['\n']
  | .background jid pgid => ("[" ++ toString jid ++ "] " ++ toString pgid ++ "\n").toList
  | .idMissing name => name ++ ": job id missing\n".toList
  | .noSuchJob name arg => name ++ [' '] ++ arg ++ ": No such job\n".toList
  | .noSuchFile name => name ++ ": No such file or directory\n".toList
  | .history i line => ("    " ++ toString i ++ " ").toList ++ line ++ ['\n']
  | .signaled sig => (signalText sig).toList

/-- The signals the shell blocks. -/
structure Mask where
  sigchld : Bool
  sigttou : Bool
  deriving Repr, DecidableEq

/-! ## Points of the main program -/

/-- The steps of `termstate_give_terminal_to`. -/
inductive GiveStage where
  | block
  | setPgrp
  | restore
  | unblock
  deriving Repr, DecidableEq

/-- Whom the terminal is given to: a job that `fg` resumes, without settings, or the shell, with the
saved ones. -/
inductive GiveTarget where
  | job (jid : Nat) (pgrp : Pid)
  | shell
  deriving Repr, DecidableEq

/-- The variables of the loop of `handle_job`: the current job, the array of descriptors (null for a
single command), `itr`, the commands before and from the current one on, and the group. -/
structure SpawnCtx where
  node : PipeNode
  jid : Nat
  fds : Option (List Fd)
  itr : Nat
  spawned : List AstCommand
  todo : List AstCommand
  pgid : Pid
  leader : Bool
  deriving Repr, DecidableEq

/-- The calls that end the shell through `utils_fatal_error`. -/
inductive FatalError where
  | waitpid
  | tcsetpgrp
  deriving Repr, DecidableEq

inductive Pc where
  /-- in `build_prompt` or `readline` -/
  | readline
  /-- at the test of the loop over the pipelines of a line -/
  | dispatch
  /-- at `list_next(e)` -/
  | listNext
  /-- in the loop of `jobs`, at index `i` -/
  | jobs (i : Nat)
  /-- before the `killpg` of `kill` and `stop` -/
  | killpg (jid : Nat) (sig : Signal)
  /-- before `job->status = FOREGROUND` -/
  | fgStatus (jid : Nat)
  /-- before the `killpg` of `fg` -/
  | fgCont (jid : Nat)
  /-- before `signal_block(SIGCHLD)` in `fg` -/
  | fgBlock (jid : Nat)
  /-- before `job->status = BACKGROUND` -/
  | bgStatus (jid : Nat)
  /-- before the `killpg` of `bg` -/
  | bgCont (jid : Nat)
  /-- at the start of `handle_job` -/
  | handleJob (node : PipeNode)
  /-- in the loop of `_create_pipes`, at index `i` -/
  | createPipes (node : PipeNode) (fds : List Fd) (i : Nat)
  /-- before `signal_block(SIGCHLD)` in `handle_job` -/
  | blockSigchld (node : PipeNode) (fds : Option (List Fd))
  /-- before `add_job` -/
  | addJob (node : PipeNode) (fds : Option (List Fd))
  /-- at the test of the loop over the commands -/
  | setUp (ctx : SpawnCtx)
  /-- before `posix_spawnp` -/
  | spawn (ctx : SpawnCtx) (fa : FileActions)
  /-- before `_close_fds` -/
  | closeFds (node : PipeNode) (jid : Nat) (fds : Option (List Fd)) (fail : Bool)
  /-- in the loop of `wait_for_job` -/
  | waitForJob (jid : Nat)
  /-- before `signal_unblock(SIGCHLD)` -/
  | unblockSigchld
  /-- in `termstate_give_terminal_to` -/
  | give (stage : GiveStage) (target : GiveTarget)
  /-- in the loop of `delete_dead_jobs`, at index `i`; `exiting` if called by `exit` -/
  | deleteDeadJobs (i : Nat) (exiting : Bool)
  | exited
  | fatal (e : FatalError)
  /-- after dereferencing a null pointer -/
  | crashed
  /-- after a failed assertion or `abort` -/
  | aborted
  deriving Repr, DecidableEq

/-- Whether the shell still runs. -/
def Pc.live : Pc → Bool
  | .exited | .fatal _ | .crashed | .aborted => false
  | _ => true

/-! ## States and events -/

structure State where
  pc : Pc
  /-- the signal mask to restore when the handler that is running returns -/
  handler : Option Mask
  mask : Mask
  -- data of the program
  scanner : Scanner
  history : List (List Char)
  /-- the pipelines of the line from `e` on -/
  line : List PipeNode
  jid2job : SlotTable Job
  /-- `job_list`, as the serial numbers of its jobs -/
  jobList : List Nat
  /-- the static `fd_index` of `_set_up_pipe` -/
  fdIndex : Nat
  savedTtyState : Termios
  shellPgrp : Pid
  -- the kernel
  procs : List Proc
  sigchldPending : Bool
  openFds : List Fd
  openMax : OpenMax
  ttyPgrp : Pid
  ttyAttr : Termios
  /-- the groups with processes that are no children of the shell -/
  otherPgrps : List Pid
  out : List Output
  /-- the groups and signals of the calls of `killpg` -/
  killed : List (Pid × Signal)
  -- the history of the run
  nextAddr : Addr
  nextSerial : Nat
  freed : List Addr
  readFreed : Bool
  /-- whether the terminal has been set while `SIGTTOU` was not blocked -/
  setUnblocked : Bool
  dispatched : List Addr
  lineAddrs : List Addr
  /-- the job whose process group the current builtin has sent `SIGCONT` -/
  resumed : Option Nat
  /-- the jobs that have had a process stop since then -/
  stops : List Nat

/-- A shell that has just been started in the foreground. -/
def State.init (shellPgrp : Pid) (attr : Termios) (openMax : OpenMax) : State :=
  { pc := .readline, handler := none, mask := ⟨false, false⟩, scanner := .fresh, history := [],
    line := [], jid2job := ⟨[]⟩, jobList := [], fdIndex := 0, savedTtyState := attr, shellPgrp,
    procs := [], sigchldPending := false, openFds := [0, 1, 2, 3], openMax, ttyPgrp := shellPgrp,
    ttyAttr := attr, otherPgrps := [], out := [], killed := [], nextAddr := 0, nextSerial := 0,
    freed := [], readFreed := false, setUnblocked := false, dispatched := [], lineAddrs := [],
    resumed := none, stops := [] }

/-- The initial states. A process group id is positive. -/
def State.Initial (s : State) : Prop :=
  ∃ shellPgrp attr openMax, 0 < shellPgrp ∧ s = State.init shellPgrp attr openMax

/-- What happens next: a step of the main program or of the handler, with the answer of the kernel
or of the user where there is a choice, or something the shell has no part in. -/
inductive Event where
  /-- `readline` returns a line; given is its expansion -/
  | line (expansion : List Char)
  | eof
  /-- the prompt is built, and `getpwuid` finds no entry for the user -/
  | noUser
  /-- the main program goes on -/
  | main
  /-- `malloc` returns an array that holds these numbers -/
  | malloc (fds : List Fd)
  /-- `pipe2` returns a read and a write end, or fails -/
  | pipe2 (ends : Option (Fd × Fd))
  /-- the next command is set up; `mem` is what memory holds beyond the array of descriptors -/
  | setUp (mem : Nat → Fd)
  /-- `posix_spawnp` succeeds, with a child that is not killed while it sets itself up -/
  | spawned (pid : Pid)
  /-- it fails; the group of the failed child may have taken the terminal -/
  | spawnFailed (took : Option Pid)
  /-- the `waitpid` of `wait_for_job` returns a child -/
  | waitpid (pid : Pid)
  /-- `SIGCHLD` is delivered -/
  | sigchldHandler
  /-- the `waitpid` of the handler returns a child -/
  | reap (pid : Pid)
  /-- the `waitpid` of the handler returns none, and the handler returns -/
  | handlerReturn
  /-- a child changes its state -/
  | child (pid : Pid) (c : Change)
  /-- `SIGCHLD` is sent for another reason -/
  | sigchld
  /-- a process of the foreground group changes the terminal settings -/
  | setAttr (pid : Pid) (attr : Termios)
  /-- other processes come and go -/
  | others (pgrps : List Pid)

end Cush
