import Cush.Kernel
import Cush.Lib.SlotTable

/-!
# Jobs (`cush.c`)

The job structure and the array `jid2job`. A job records its pipeline, whose commands hold the pids
of their processes, and the group of these processes. Pipelines are heap nodes and are told apart by
their addresses; jobs are told apart by the order in which they were created.
-/

namespace Cush

/-- The address of a pipeline in the heap. -/
abbrev Addr := Nat

/-- A pipeline in the heap. -/
structure PipeNode where
  addr : Addr
  pipe : AstPipeline
  deriving Repr, DecidableEq

/-- `enum job_status` -/
inductive JobStatus where
  | foreground
  | background
  | stopped
  | needsTerminal
  | done
  deriving Repr, DecidableEq

/-- `struct job`. `pids` are the pids stored in the commands of the pipeline, for as many as have
been spawned; `pgid` is 0 until the first one has been. `serial` tells jobs apart. -/
structure Job where
  pipe : PipeNode
  jid : Nat
  status : JobStatus
  numProcessesAlive : Int
  savedTtyState : Option Termios
  pgid : Pid
  pids : List Pid
  serial : Nat
  deriving Repr, DecidableEq

def MAXJOBS : Nat := 65536

/-- `get_job_from_jid` -/
def getJobFromJid (jid2job : SlotTable Job) (jid : Int) : Option Job :=
  if 0 < jid ∧ jid < MAXJOBS then jid2job.get jid.toNat else none

/-- `_get_job_from_pid`: the index of the first job with a command of that pid. -/
def getJobFromPid (jid2job : SlotTable Job) (pid : Pid) : Option Nat :=
  jid2job.find fun job => job.pids.contains pid

/-! ## Printing -/

def getStatus : JobStatus → String
  | .foreground => "Foreground"
  | .background => "Running"
  | .stopped => "Stopped"
  | .needsTerminal => "Stopped (tty)"
  | .done => "Done"

/-- `print_cmdline` -/
def printCmdline (pipeline : AstPipeline) : List Char :=
  List.intercalate ['|', ' '] (pipeline.commands.map fun cmd => List.intercalate [' '] cmd.argv)

end Cush
