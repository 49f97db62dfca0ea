import Cush.Shell.State

/-!
# The steps of the shell (`cush.c`, `termstate_management.c`)

`mainStep` is what the main program does from the point it has reached where nothing outside it has
a say; `step` adds the handler, the answers of the kernel and what happens around the shell. The
main program does not run while the handler does.
-/

namespace Cush

namespace State

def crash (s : State) : State :=
  { s with pc := .crashed }

def abort (s : State) : State :=
  { s with pc := .aborted }

def print (s : State) (o : Output) : State :=
  { s with out := s.out ++ [o] }

def modifyJob (s : State) (jid : Nat) (f : Job → Job) : State :=
  { s with jid2job := s.jid2job.modify jid f }

def setStatus (s : State) (jid : Nat) (status : JobStatus) : State :=
  s.modifyJob jid fun job => { job with status }

/-- Read a field or a link of a pipeline. Where it has been freed, memory still holds it. -/
def readNode (s : State) (addr : Addr) : State :=
  { s with readFreed := s.readFreed || s.freed.contains addr }

/-! ## The terminal -/

def setTtyPgrp (s : State) (pgrp : Pid) : State :=
  { s with ttyPgrp := pgrp, setUnblocked := s.setUnblocked || !s.mask.sigttou }

def setTtyAttr (s : State) (attr : Termios) : State :=
  { s with ttyAttr := attr, setUnblocked := s.setUnblocked || !s.mask.sigttou }

/-- Whether a process of the session is in the group: `tcsetpgrp` and `setpgid` fail otherwise. -/
def groupExists (s : State) (pgrp : Pid) : Bool :=
  pgrp == s.shellPgrp || s.procs.any (fun p => p.pgid = pgrp) || s.otherPgrps.contains pgrp

def maskSigttou (s : State) (blocked : Bool) : State :=
  { s with mask := { s.mask with sigttou := blocked } }

def maskSigchld (s : State) (blocked : Bool) : State :=
  { s with mask := { s.mask with sigchld := blocked } }

/-- `termstate_give_terminal_back_to_shell`, as `handle_child_status` calls it: `SIGCHLD` is blocked
and nothing comes in between. -/
def termstateGiveTerminalBackToShell (s : State) : State :=
  let s := s.maskSigttou true
  let s := s.setTtyPgrp s.shellPgrp
  let s := s.setTtyAttr s.savedTtyState
  s.maskSigttou false

/-! ## `handle_child_status` -/

def printJob (s : State) (jid : Nat) : State :=
  match s.jid2job.get jid with
  | none => s
  | some job => s.print (.job job.jid job.status (printCmdline job.pipe.pipe))

/-- The branch for a stopped process. -/
def childStopped (s : State) (jid : Nat) (job : Job) (sig : Signal) : State :=
  let s :=
    if job.status = .foreground then
      -- `termstate_save(&jobNeeded->saved_tty_state)`
      let s := s.modifyJob jid fun job => { job with savedTtyState := some s.ttyAttr }
      s.termstateGiveTerminalBackToShell
    else s
  let s :=
    if sig = .sigttou ∨ sig = .sigttin then s.setStatus jid .needsTerminal
    else s.setStatus jid .stopped
  s.printJob jid

/-- The branch for a process that has exited. -/
def childExited (s : State) (jid : Nat) (job : Job) : State :=
  let s :=
    if job.status = .foreground then
      if job.numProcessesAlive = 1 then s.termstateGiveTerminalBackToShell else s
    else if job.status = .background ∧ job.numProcessesAlive = 1 then s.setStatus jid .done
    else s
  s.modifyJob jid fun job => { job with numProcessesAlive := job.numProcessesAlive - 1 }

/-- The branch for a process that was killed. -/
def childSignaled (s : State) (jid : Nat) (job : Job) (sig : Signal) : State :=
  let s :=
    if job.status = .foreground then
      if job.numProcessesAlive = 1 then s.termstateGiveTerminalBackToShell else s
    else s
  let s := s.modifyJob jid fun job => { job with numProcessesAlive := job.numProcessesAlive - 1 }
  s.print (.signaled sig)

/-- `handle_child_status`. A pid that belongs to no job makes it dereference a null pointer. -/
def handleChildStatus (s : State) (pid : Pid) (status : WaitStatus) : State :=
  if s.mask.sigchld then
    match getJobFromPid s.jid2job pid with
    | none => s.crash
    | some jid =>
      match s.jid2job.get jid with
      | none => s.crash
      | some job =>
        match status with
        | .stopped sig => s.childStopped jid job sig
        | .terminated (.exited _) => s.childExited jid job
        | .terminated (.signaled sig) => s.childSignaled jid job sig
  else s.abort

/-- A call of `waitpid` that returns `pid`, and what is done with its status. -/
def waitChild (s : State) (pid : Pid) : Option State :=
  (waitpid s.procs pid).map fun (status, procs) => { s with procs }.handleChildStatus pid status

end State

/-! ## Builtins -/

/-- The leading digits of a text, as a number. -/
def digitsValue : Nat → List Char → Nat
  | n, [] => n
  | n, c :: text => if c.isDigit then digitsValue (10 * n + (c.toNat - '0'.toNat)) text else n

def isSpace (c : Char) : Bool :=
  c == ' ' || (9 ≤ c.toNat && c.toNat ≤ 13)

/-- The bounds of a `long` of 64 bits and of an `int` of 32. -/
def LONG_MAX : Int := 0x7fffffffffffffff
def LONG_MIN : Int := -LONG_MAX - 1
def INT_MIN : Int := -0x80000000

/-- `strtol` to the base 10. -/
def strtol (text : List Char) : Int :=
  let value : Int :=
    match text.dropWhile isSpace with
    | '-' :: text => -(digitsValue 0 text)
    | '+' :: text => digitsValue 0 text
    | text => digitsValue 0 text
  if value < LONG_MIN then LONG_MIN
  else if LONG_MAX < value then LONG_MAX
  else value

/-- `atoi`: the value of `strtol`, cut to an `int`. -/
def atoi (text : List Char) : Int :=
  (strtol text - INT_MIN) % 0x100000000 + INT_MIN

inductive Builtin where
  | jobs
  | kill
  | stop
  | fg
  | bg
  | history
  | exit
  deriving Repr, DecidableEq

/-- The comparisons of `handle_builtin`. -/
def Builtin.ofName (name : Word) : Option Builtin :=
  if name = ['j', 'o', 'b', 's'] then some .jobs
  else if name = ['k', 'i', 'l', 'l'] then some .kill
  else if name = ['s', 't', 'o', 'p'] then some .stop
  else if name = ['f', 'g'] then some .fg
  else if name = ['b', 'g'] then some .bg
  else if name = ['h', 'i', 's', 't', 'o', 'r', 'y'] then some .history
  else if name = ['e', 'x', 'i', 't'] then some .exit
  else none

namespace State

/-- The argument checks that `kill`, `stop` and `fg` share, and what follows them for a job. -/
def withJob (s : State) (name : Word) (args : List Word) (k : Nat → Job → State) : State :=
  match args with
  | [] => { s.print (.idMissing name) with pc := .listNext }
  | arg :: _ =>
    let jid := atoi arg
    match getJobFromJid s.jid2job jid with
    | none => { s.print (.noSuchJob name arg) with pc := .listNext }
    | some job => k jid.toNat job

/-- `bg` checks neither its argument nor the job. -/
def builtinBg (s : State) (args : List Word) : State :=
  match args with
  | [] => s.crash
  | arg :: _ =>
    let jid := atoi arg
    match getJobFromJid s.jid2job jid with
    | none => s.crash
    | some _ => { s with pc := .bgStatus jid.toNat }

def printHistory (s : State) : State :=
  { s with out := s.out ++ s.history.zipIdx.map fun (line, i) => .history i line }

/-- `handle_builtin`, up to its first point; a pipeline that is no builtin goes to `handle_job`. -/
def handleBuiltin (s : State) (node : PipeNode) (name : Word) (args : List Word) : State :=
  match Builtin.ofName name with
  | some .jobs => { s with pc := .jobs 0 }
  | some .kill => s.withJob name args fun jid _ => { s with pc := .killpg jid .sigterm }
  | some .stop => s.withJob name args fun jid _ => { s with pc := .killpg jid .sigtstp }
  | some .fg =>
    s.withJob name args fun jid job =>
      { s.print (.cmdline (printCmdline job.pipe.pipe)) with pc := .fgStatus jid }
  | some .bg => s.builtinBg args
  | some .history => { s.printHistory with pc := .listNext }
  | some .exit => { s with pc := .deleteDeadJobs 0 true }
  | none => { s with pc := .handleJob node }

/-- The body of the loop over the pipelines of a line, up to its first point. -/
def dispatch (s : State) : State :=
  match s.line with
  | [] => { s with pc := .deleteDeadJobs 0 false }
  | node :: _ =>
    let s := { s.readNode node.addr with dispatched := s.dispatched ++ [node.addr] }
    match node.pipe.commands with
    | [] => s.crash
    | cmd :: _ =>
      match cmd.argv with
      | [] => s.crash
      | name :: args => s.handleBuiltin node name args

/-- `e = list_next(e)` -/
def listNext (s : State) : State :=
  match s.line with
  | [] => s.crash
  | node :: rest =>
    { s.readNode node.addr with pc := .dispatch, line := rest, resumed := none, stops := [] }

/-- A round of the loop of `jobs`. -/
def jobsNext (s : State) (i : Nat) : State :=
  match s.jid2job.next i with
  | none => { s with pc := .listNext }
  | some k => { s.printJob k with pc := .jobs (k + 1) }

/-- `killpg`. Continuing a stopped child sends `SIGCHLD`. -/
def killpg (s : State) (pgrp : Pid) (sig : Signal) : State :=
  let continues := s.procs.any fun p => p.pgid = pgrp ∧ (p.signal sig).state ≠ p.state
  { s with
    procs := Cush.killpg s.procs pgrp sig
    killed := s.killed ++ [(pgrp, sig)]
    sigchldPending := s.sigchldPending || continues }

/-- Do something with the job a builtin has looked up. -/
def forJob (s : State) (jid : Nat) (k : Job → State) : State :=
  match s.jid2job.get jid with
  | none => s.crash
  | some job => k job

/-- The `killpg` of `fg` and `bg`. -/
def sendSigcont (s : State) (job : Job) : State :=
  { s.killpg job.pgid .sigcont with resumed := some job.serial, stops := [] }

/-! ## Jobs -/

/-- `add_job`. Where the table is full it aborts with a job in `job_list` that is in no slot, which
this leaves out. -/
def addJob (s : State) (node : PipeNode) (fds : Option (List Fd)) : State :=
  let jid := s.jid2job.firstFree 1
  if jid < MAXJOBS then
    let job : Job :=
      { pipe := node, jid, status := if node.pipe.bgJob then .background else .foreground,
        numProcessesAlive := 0, savedTtyState := none, pgid := 0, pids := [],
        serial := s.nextSerial }
    { s.readNode node.addr with
      jid2job := s.jid2job.set jid (some job)
      jobList := s.jobList ++ [job.serial]
      nextSerial := s.nextSerial + 1
      pc := .setUp
        { node, jid, fds, itr := 0, spawned := [], todo := node.pipe.commands, pgid := 0,
          leader := true } }
  else s.abort

/-- `delete_job`, and the point after it. -/
def deleteJob (s : State) (jid : Nat) (pc : Pc) : State :=
  s.forJob jid fun job =>
    { s with
      jid2job := s.jid2job.set jid none
      jobList := s.jobList.erase job.serial
      freed := job.pipe.addr :: s.freed
      pc }

/-- A round of the loop of `delete_dead_jobs`, or what follows the loop. -/
def deleteDeadJobs (s : State) (i : Nat) (exiting : Bool) : State :=
  match s.jid2job.next i with
  | none => { s with pc := if exiting then .exited else .readline }
  | some k =>
    match s.jid2job.get k with
    | none => s.crash
    | some job =>
      if job.numProcessesAlive = 0 then
        let s := if job.status = .done then s.print (.jobDone job.jid) else s
        s.deleteJob k (.deleteDeadJobs (k + 1) exiting)
      else { s with pc := .deleteDeadJobs (k + 1) exiting }

/-! ## `handle_job` -/

/-- The start of `handle_job`, for a single command. -/
def handleJob (s : State) (node : PipeNode) : State :=
  { s.readNode node.addr with pc := .blockSigchld node none }

/-- Set up the next command. -/
def setUp (s : State) (ctx : SpawnCtx) (cmd : AstCommand) (mem : Nat → Fd) : State :=
  let (fa, fdIndex) :=
    setUpCommand s.openMax ctx.node.pipe cmd (readFds (ctx.fds.getD []) mem) ctx.itr s.fdIndex
  let itr := if ctx.node.pipe.commands.length > 1 then ctx.itr + 1 else ctx.itr
  { s.readNode ctx.node.addr with fdIndex, pc := .spawn { ctx with itr } fa }

/-- Whether the spawned process takes the terminal. -/
def takesTerminal (ctx : SpawnCtx) : Bool :=
  ctx.leader && !ctx.node.pipe.bgJob

/-- A successful spawn: the process, and what `handle_job` records of it. The process lives at least
until it is in its group and, as the leader of a job in the foreground, has taken the terminal. -/
def spawnOk (s : State) (ctx : SpawnCtx) (cmd : AstCommand) (rest : List AstCommand) (job : Job)
    (pid : Pid) : State :=
  let pgid := if ctx.pgid = 0 then pid else ctx.pgid
  let first := ctx.spawned.isEmpty
  { s.readNode ctx.node.addr with
    procs := s.procs ++
      [{ pid, pgid, owner := job.serial, state := .running, pending := [] }]
    ttyPgrp := if takesTerminal ctx then pgid else s.ttyPgrp
    jid2job := s.jid2job.modify ctx.jid fun job =>
      { job with
        pgid := if first then pid else job.pgid
        pids := job.pids ++ [pid]
        numProcessesAlive := job.numProcessesAlive + 1 }
    pc := .setUp
      { ctx with
        spawned := ctx.spawned ++ [cmd]
        todo := rest
        pgid := if first then pid else ctx.pgid
        leader := if first then false else ctx.leader } }

/-- A pid the kernel can give a new child. -/
def freshPid (s : State) (pid : Pid) : Bool :=
  pid ≠ 0 && pid ≠ s.shellPgrp && s.procs.all (fun p => p.pid ≠ pid && p.pgid ≠ pid) &&
    !s.otherPgrps.contains pid

/-- A failed spawn: the job is deleted and the loop left. -/
def spawnFail (s : State) (ctx : SpawnCtx) (cmd : AstCommand) (took : Option Pid) : State :=
  let s := s.readNode ctx.node.addr
  let s := s.print (.noSuchFile (cmd.argv.headD []))
  let s := { s with ttyPgrp := if takesTerminal ctx then took.getD s.ttyPgrp else s.ttyPgrp }
  s.deleteJob ctx.jid (.closeFds ctx.node ctx.jid ctx.fds true)

/-- The call of `wait_for_job`, with its assertion. -/
def enterWaitForJob (s : State) (jid : Nat) : State :=
  if s.mask.sigchld then { s with pc := .waitForJob jid } else s.abort

/-- What follows the loop over the commands. -/
def closeFds (s : State) (node : PipeNode) (jid : Nat) (fds : Option (List Fd)) (fail : Bool) :
    State :=
  let s := { s with openFds := s.openFds.filter fun fd => !(fds.getD []).contains fd }
  let s := s.readNode node.addr
  if !node.pipe.bgJob && !fail then s.enterWaitForJob jid
  else if !fail then
    s.forJob jid fun job =>
      { s.print (.background job.jid job.pgid) with pc := .unblockSigchld }
  else { s with pc := .unblockSigchld }

/-- The test of the loop of `wait_for_job`. -/
def keepsWaiting (job : Job) : Bool :=
  job.status = .foreground && job.numProcessesAlive > 0

/-! ## The main program -/

/-- A line has been read: it is parsed, and the loop over its pipelines entered. -/
def readLine (s : State) (expansion : List Char) : State :=
  let (r, scanner) := astParseCommandLine s.scanner expansion
  let s := { s with history := s.history ++ [expansion], scanner }
  match r with
  | .abort _ | .stuck => s.abort
  | .null none => s
  | .null (some msg) => s.print (.parseError msg)
  | .ast cline =>
    if cline.pipes = [] then s
    else
      let line := cline.pipes.zipIdx.map fun (pipe, i) => ⟨s.nextAddr + i, pipe⟩
      { s with
        pc := .dispatch
        line
        nextAddr := s.nextAddr + line.length
        dispatched := []
        lineAddrs := line.map PipeNode.addr }

/-- A step of `termstate_give_terminal_to`. -/
def give (s : State) (stage : GiveStage) (target : GiveTarget) : State :=
  match stage, target with
  | .block, _ => { s.maskSigttou true with pc := .give .setPgrp target }
  | .setPgrp, .job _ pgrp =>
    if s.groupExists pgrp then { s.setTtyPgrp pgrp with pc := .give .unblock target }
    else { s with pc := .fatal .tcsetpgrp }
  | .setPgrp, .shell => { s.setTtyPgrp s.shellPgrp with pc := .give .restore target }
  | .restore, _ => { s.setTtyAttr s.savedTtyState with pc := .give .unblock target }
  | .unblock, .job jid _ => { s.maskSigttou false with pc := .fgBlock jid }
  | .unblock, .shell => { s.maskSigttou false with pc := .listNext }

/-- The steps of the main program that need no answer. -/
def mainStep (s : State) : Option State :=
  match s.pc with
  | .dispatch => some s.dispatch
  | .listNext => some s.listNext
  | .jobs i => some (s.jobsNext i)
  | .killpg jid sig =>
    some (s.forJob jid fun job => { s.killpg job.pgid sig with pc := .listNext })
  | .fgStatus jid => some { s.setStatus jid .foreground with pc := .fgCont jid }
  | .fgCont jid =>
    some (s.forJob jid fun job =>
      { s.sendSigcont job with pc := .give .block (.job jid job.pgid) })
  | .fgBlock jid => some ((s.maskSigchld true).enterWaitForJob jid)
  | .bgStatus jid => some { s.setStatus jid .background with pc := .bgCont jid }
  | .bgCont jid => some (s.forJob jid fun job => { s.sendSigcont job with pc := .listNext })
  | .handleJob node => if node.pipe.commands.length > 1 then none else some (s.handleJob node)
  | .blockSigchld node fds => some { s.maskSigchld true with pc := .addJob node fds }
  | .addJob node fds => some (s.addJob node fds)
  | .setUp ctx =>
    match ctx.todo with
    | [] => some { s with pc := .closeFds ctx.node ctx.jid ctx.fds false }
    | _ :: _ => none
  | .closeFds node jid fds fail => some (s.closeFds node jid fds fail)
  | .waitForJob jid =>
    match s.jid2job.get jid with
    | none => some s.crash
    | some job =>
      if keepsWaiting job then
        if s.procs = [] then some { s with pc := .fatal .waitpid } else none
      else some { s with pc := .unblockSigchld }
  | .unblockSigchld => some { s.maskSigchld false with pc := .give .block .shell }
  | .give stage target => some (s.give stage target)
  | .deleteDeadJobs i exiting => some (s.deleteDeadJobs i exiting)
  | _ => none

/-- `malloc` in `_create_pipes`. -/
def malloc (s : State) (node : PipeNode) (fds : List Fd) : Option State :=
  if node.pipe.commands.length > 1 ∧ fds.length = fdLen node.pipe then
    some { s.readNode node.addr with pc := .createPipes node fds 0 }
  else none

/-- A round of the loop of `_create_pipes`. A failed `pipe2` leaves the array as it is, one that
succeeds returns two descriptors that are free and below the limit. -/
def createPipe (s : State) (node : PipeNode) (fds : List Fd) (i : Nat) (ends : Option (Fd × Fd)) :
    Option State :=
  match ends with
  | none => some { s with pc := .createPipes node fds (i + 2) }
  | some (r, w) =>
    if spawnValidFd s.openMax r ∧ spawnValidFd s.openMax w ∧ r ≠ w ∧ r ∉ s.openFds ∧
        w ∉ s.openFds then
      some
        { s with
          openFds := s.openFds ++ [r, w]
          pc := .createPipes node ((fds.set i r).set (i + 1) w) (i + 2) }
    else none

/-- The steps of the main program that depend on an answer. -/
def answerStep (s : State) : Event → Option State
  | .line expansion => if s.pc = .readline then some (s.readLine expansion) else none
  | .eof => if s.pc = .readline then some { s with pc := .exited } else none
  -- `build_prompt` follows the null pointer
  | .noUser => if s.pc = .readline then some s.crash else none
  | .main =>
    match s.pc with
    | .createPipes node fds i =>
      if i < fds.length then none else some { s with pc := .blockSigchld node (some fds) }
    | _ => s.mainStep
  | .malloc fds =>
    match s.pc with
    | .handleJob node => s.malloc node fds
    | _ => none
  | .pipe2 ends =>
    match s.pc with
    | .createPipes node fds i => if i < fds.length then s.createPipe node fds i ends else none
    | _ => none
  | .setUp mem =>
    match s.pc with
    | .setUp ctx =>
      match ctx.todo with
      | [] => none
      | cmd :: _ => some (s.setUp ctx cmd mem)
    | _ => none
  | .spawned pid =>
    match s.pc with
    | .spawn ctx _ =>
      match ctx.todo with
      | cmd :: rest =>
        if s.freshPid pid ∧ (ctx.pgid = 0 ∨ s.groupExists ctx.pgid) then
          some (s.forJob ctx.jid fun job => s.spawnOk ctx cmd rest job pid)
        else none
      | [] => none
    | _ => none
  | .spawnFailed took =>
    match s.pc with
    | .spawn ctx _ =>
      match ctx.todo with
      | cmd :: _ => some (s.spawnFail ctx cmd took)
      | [] => none
    | _ => none
  | .waitpid pid =>
    match s.pc with
    | .waitForJob jid =>
      match s.jid2job.get jid with
      | some job => if keepsWaiting job then s.waitChild pid else none
      | none => none
    | _ => none
  | _ => none

/-! ## The handler, and what happens around the shell -/

/-- `SIGCHLD` is delivered: it is blocked while the handler runs. -/
def sigchldHandler (s : State) : Option State :=
  if s.sigchldPending ∧ s.mask.sigchld = false then
    some { s.maskSigchld true with handler := some s.mask, sigchldPending := false }
  else none

/-- The handler returns once no child has anything to report. -/
def handlerReturn (s : State) (mask : Mask) : Option State :=
  if reportable s.procs then none else some { s with handler := none, mask }

/-- The jobs that have had a process stop, after a change of a child. -/
def stopsAfter (s : State) (pid : Pid) : Change → List Nat
  | .stop _ => s.stops ++ ((s.procs.filter fun p => p.pid = pid).map Proc.owner)
  | _ => s.stops

/-- A child changes its state, and `SIGCHLD` is sent. -/
def childChange (s : State) (pid : Pid) (c : Change) : Option State :=
  (changeProc s.procs pid c).map fun procs =>
    { s with procs, sigchldPending := true, stops := s.stopsAfter pid c }

/-- Whether a process is in the foreground group: a child of the shell that runs, or some other
process of a group that is not the shell's. -/
def inForeground (s : State) (pid : Pid) : Bool :=
  s.procs.any (fun p => p.pid = pid ∧ p.pgid = s.ttyPgrp ∧ p.state = .running) ||
    (s.ttyPgrp ≠ s.shellPgrp && s.otherPgrps.contains s.ttyPgrp)

/-- Only a process of the foreground group changes the terminal settings. -/
def setAttr (s : State) (pid : Pid) (attr : Termios) : Option State :=
  if s.inForeground pid then some { s with ttyAttr := attr } else none

/-- The events that need no step of the main program. -/
def environmentStep (s : State) : Event → Option State
  | .child pid c => s.childChange pid c
  | .sigchld => some { s with sigchldPending := true }
  | .setAttr pid attr => s.setAttr pid attr
  | .others pgrps => some { s with otherPgrps := pgrps }
  | _ => none

end State

/-- One step of the system. -/
def step (s : State) (e : Event) : Option State :=
  if s.pc.live then
    match e with
    | .child .. | .sigchld | .setAttr .. | .others .. => s.environmentStep e
    | .sigchldHandler => if s.handler.isNone then s.sigchldHandler else none
    | .reap pid => if s.handler.isSome then s.waitChild pid else none
    | .handlerReturn =>
      match s.handler with
      | some mask => s.handlerReturn mask
      | none => none
    | _ => if s.handler.isNone then s.answerStep e else none
  else none

end Cush
