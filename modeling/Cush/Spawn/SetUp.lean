import Cush.Spawn.FileActions

/-!
# Setting up the commands of a pipeline (`cush.c`)

The file actions `handle_job` builds for each command: the redirections of the pipeline, then the
pipes, then stderr. `_set_up_pipe` finds its place in the array of descriptors through a static
index, which only the last command of a pipeline sets back.
-/

namespace Cush

/-- `IO_IN` and `IO_OUT`. -/
inductive IoFlag where
  | ioIn
  | ioOut
  deriving Repr, DecidableEq

/-- `_set_up_io`; adding an action does not fail for these descriptors. -/
def setUpIo (openMax : OpenMax) (fa : FileActions) (iored : Word) (append : Bool)
    (dupStdoutToStdin : Bool) (ioflag : IoFlag) : FileActions :=
  let fa :=
    match ioflag with
    | .ioIn => fa.addopen openMax STDIN_FILENO iored .readOnly
    | .ioOut =>
      if append then fa.addopen openMax STDOUT_FILENO iored .append
      else fa.addopen openMax STDOUT_FILENO iored .truncate
  if dupStdoutToStdin then fa.adddup2 openMax STDOUT_FILENO STDERR_FILENO else fa

/-- `_set_up_pipe`, with its static `fd_index` before and after. -/
def setUpPipe (openMax : OpenMax) (fa : FileActions) (newfds : Nat → Fd)
    (iteration cmdLen fdIndex : Nat) : FileActions × Nat :=
  if iteration = 0 then (fa.adddup2 openMax (newfds (fdIndex + 1)) STDOUT_FILENO, fdIndex)
  else if iteration = cmdLen - 1 then (fa.adddup2 openMax (newfds fdIndex) STDIN_FILENO, 0)
  else
    let fa := fa.adddup2 openMax (newfds fdIndex) STDIN_FILENO
    let fdIndex := fdIndex + 2
    (fa.adddup2 openMax (newfds (fdIndex + 1)) STDOUT_FILENO, fdIndex)

/-- The indices of the array `_set_up_pipe` reads. -/
def setUpPipeReads (iteration cmdLen fdIndex : Nat) : List Nat :=
  if iteration = 0 then [fdIndex + 1]
  else if iteration = cmdLen - 1 then [fdIndex]
  else [fdIndex, fdIndex + 2 + 1]

/-- `newfds[i]`; beyond the array, what memory holds there. -/
def readFds (fds : List Fd) (mem : Nat → Fd) (i : Nat) : Fd :=
  (fds[i]?).getD (mem i)

/-- The file actions of one command, as the loop of `handle_job` builds them, and the new
`fd_index`. -/
def setUpCommand (openMax : OpenMax) (pipe : AstPipeline) (cmd : AstCommand)
    (newfds : Nat → Fd) (itr fdIndex : Nat) : FileActions × Nat :=
  let fa : FileActions := []
  let fa :=
    match pipe.ioredInput with
    | some iored => setUpIo openMax fa iored pipe.appendToOutput cmd.dupStderrToStdout .ioIn
    | none => fa
  let fa :=
    match pipe.ioredOutput with
    | some iored => setUpIo openMax fa iored pipe.appendToOutput cmd.dupStderrToStdout .ioOut
    | none => fa
  let cmdLen := pipe.commands.length
  let (fa, fdIndex) :=
    if cmdLen > 1 then setUpPipe openMax fa newfds itr cmdLen fdIndex else (fa, fdIndex)
  let fa := if cmd.dupStderrToStdout then fa.adddup2 openMax STDOUT_FILENO STDERR_FILENO else fa
  (fa, fdIndex)

/-- The set-ups of the loop of `handle_job` from the command at position `itr` on, where no spawn
fails: the actions of each command, and `fd_index` at the end. -/
def setUpCommands (openMax : OpenMax) (pipe : AstPipeline) (newfds : Nat → Fd) :
    Nat → Nat → List AstCommand → List FileActions × Nat
  | _, fdIndex, [] => ([], fdIndex)
  | itr, fdIndex, cmd :: rest =>
    let (fa, fdIndex) := setUpCommand openMax pipe cmd newfds itr fdIndex
    let (fas, fdIndex) := setUpCommands openMax pipe newfds (itr + 1) fdIndex rest
    (fa :: fas, fdIndex)

/-- `_create_pipes`: the number of descriptors it is asked for. -/
def fdLen (pipe : AstPipeline) : Nat :=
  (pipe.commands.length - 1) * 2

end Cush
