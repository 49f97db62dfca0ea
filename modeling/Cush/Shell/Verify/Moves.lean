import Cush.Shell.Step

/-!
# What a step does

`Move` lists the steps of the shell with the state each of them leads to, written out field by
field: what the guards say, which branch was taken, and what changes. `step_move` shows that every
step is a move; properties of runs are proved by cases on the move.
-/

namespace Cush

/-- A job after `handle_child_status`; `attr` are the terminal settings. -/
def Job.handled (job : Job) (attr : Termios) : WaitStatus → Job
  | .stopped sig =>
    { job with
      savedTtyState := if job.status = .foreground then some attr else job.savedTtyState
      status := if sig = .sigttou ∨ sig = .sigttin then .needsTerminal else .stopped }
  | .terminated (.exited _) =>
    { job with
      status :=
        if job.status = .background ∧ job.numProcessesAlive = 1 then .done else job.status
      numProcessesAlive := job.numProcessesAlive - 1 }
  | .terminated (.signaled _) => { job with numProcessesAlive := job.numProcessesAlive - 1 }

@[simp] theorem Job.handled_serial (job : Job) (attr : Termios) (status : WaitStatus) :
    (job.handled attr status).serial = job.serial := by
  rcases status with (_ | _) | _ <;> rfl

@[simp] theorem Job.handled_pgid (job : Job) (attr : Termios) (status : WaitStatus) :
    (job.handled attr status).pgid = job.pgid := by
  rcases status with (_ | _) | _ <;> rfl

@[simp] theorem Job.handled_pipe (job : Job) (attr : Termios) (status : WaitStatus) :
    (job.handled attr status).pipe = job.pipe := by
  rcases status with (_ | _) | _ <;> rfl

/-- Whether `handle_child_status` gives the terminal back to the shell. -/
def Job.givesBack (job : Job) : WaitStatus → Bool
  | .stopped _ => job.status = .foreground
  | .terminated _ => job.status = .foreground ∧ job.numProcessesAlive = 1

/-- Whether a builtin works on the job that its argument names. -/
def Builtin.namesJob : Builtin → Bool
  | .kill | .stop | .fg | .bg => true
  | _ => false

/-- The builtin that a pipeline calls. -/
def AstPipeline.builtin (pipe : AstPipeline) : Option Builtin :=
  match pipe.commands with
  | { argv := name :: _, .. } :: _ => Builtin.ofName name
  | _ => none

/-- The steps in which the shell can come upon a null pointer or a failed assertion other than those
of `handle_child_status`. -/
def Event.ofMain : Event → Bool
  | .line _ | .noUser | .main | .spawned _ | .spawnFailed _ => true
  | _ => false

/-- The pipeline that `handle_job` works on. -/
def Pc.node : Pc → Option PipeNode
  | .handleJob node | .createPipes node .. | .blockSigchld node _ | .addJob node _
  | .closeFds node .. => some node
  | .setUp ctx | .spawn ctx _ => some ctx.node
  | _ => none

namespace State

/-- The job that the builtin of a pipeline names, if it is in the table. -/
def namedJob (jid2job : SlotTable Job) (pipe : AstPipeline) : Option Nat :=
  match pipe.commands with
  | { argv := name :: arg :: _, .. } :: _ =>
    if (Builtin.ofName name).any Builtin.namesJob then
      (getJobFromJid jid2job (atoi arg)).map fun _ => (atoi arg).toNat
    else none
  | _ => none

/-- The points the body of the loop over the pipelines can lead to, other than the end of the shell.
A builtin that works on a job has found it. -/
inductive DispatchTo (jid2job : SlotTable Job) (node : PipeNode) : Pc → Prop
  | listNext : DispatchTo jid2job node .listNext
  | jobs (hb : node.pipe.builtin = some .jobs) : DispatchTo jid2job node (.jobs 0)
  | killpg {jid : Nat} {job : Job} (sig : Signal) (hn : namedJob jid2job node.pipe = some jid)
      (hj : jid2job.get jid = some job) (hs : sig ≠ .sigcont) :
      DispatchTo jid2job node (.killpg jid sig)
  | fg {jid : Nat} {job : Job} (hn : namedJob jid2job node.pipe = some jid)
      (hj : jid2job.get jid = some job) : DispatchTo jid2job node (.fgStatus jid)
  | bg {jid : Nat} {job : Job} (hn : namedJob jid2job node.pipe = some jid)
      (hj : jid2job.get jid = some job) : DispatchTo jid2job node (.bgStatus jid)
  | exit : DispatchTo jid2job node (.deleteDeadJobs 0 true)
  | handleJob : DispatchTo jid2job node (.handleJob node)

/-- Whether `readFreed` can become `rf` by reading the pipeline at `e` or the one that `handle_job`
works on. -/
def ReadsCurrent (s : State) (rf : Bool) : Prop :=
  rf = s.readFreed ∨ ∃ node, (s.pc.node = some node ∨
    (s.pc = .dispatch ∧ s.line.head? = some node)) ∧
      rf = (s.readFreed || s.freed.contains node.addr)

/-- What `waitpid` is called for: the handler that is running, or a job in the foreground. -/
def Waiting (s : State) : Event → Pid → Prop
  | .reap pid', pid => pid' = pid ∧ s.handler.isSome = true
  | .waitpid pid', pid => pid' = pid ∧ s.handler = none ∧
      ∃ jid job, s.pc = .waitForJob jid ∧ s.jid2job.get jid = some job ∧ keepsWaiting job = true
  | _, _ => False

end State

open State

/-- One step of the system, by cases. -/
inductive Move (s : State) : Event → State → Prop
  -- around the shell
  | child {pid : Pid} {c : Change} {procs : List Proc}
      (hc : changeProc s.procs pid c = some procs) :
      Move s (.child pid c)
        { s with procs, sigchldPending := true, stops := s.stopsAfter pid c }
  | sigchld : Move s .sigchld { s with sigchldPending := true }
  | setAttr {pid : Pid} {attr : Termios} (hf : s.inForeground pid = true) :
      Move s (.setAttr pid attr) { s with ttyAttr := attr }
  | others {pgrps : List Pid} : Move s (.others pgrps) { s with otherPgrps := pgrps }
  -- the handler
  | handlerStart (hh : s.handler = none) (hm : s.mask.sigchld = false) :
      Move s .sigchldHandler
        { s with mask := ⟨true, s.mask.sigttou⟩, handler := some s.mask, sigchldPending := false }
  | handlerReturn {mask : Mask} (hh : s.handler = some mask) (hr : reportable s.procs = false) :
      Move s .handlerReturn { s with handler := none, mask }
  -- a status is handled
  | handled {e : Event} {pid : Pid} {status : WaitStatus} {procs : List Proc} {jid : Nat}
      {job : Job} (out : List Output) (hwait : s.Waiting e pid) (hm : s.mask.sigchld = true)
      (hw : waitpid s.procs pid = some (status, procs))
      (hj : getJobFromPid s.jid2job pid = some jid) (hg : s.jid2job.get jid = some job) :
      Move s e
        { s with procs, out, jid2job := s.jid2job.set jid (some (job.handled s.ttyAttr status)),
                 ttyPgrp := if job.givesBack status then s.shellPgrp else s.ttyPgrp,
                 ttyAttr := if job.givesBack status then s.savedTtyState else s.ttyAttr,
                 mask := ⟨true, if job.givesBack status then false else s.mask.sigttou⟩ }
  /-- a status of no job is taken up -/
  | lost {e : Event} {pid : Pid} {status : WaitStatus} {procs : List Proc}
      (hwait : s.Waiting e pid) (hw : waitpid s.procs pid = some (status, procs))
      (hj : getJobFromPid s.jid2job pid = none) : Move s e { s with procs, pc := .crashed }
  /-- a status is taken up while `SIGCHLD` is not blocked -/
  | unblocked {e : Event} {pid : Pid} {status : WaitStatus} {procs : List Proc}
      (hwait : s.Waiting e pid) (hw : waitpid s.procs pid = some (status, procs))
      (hm : s.mask.sigchld = false) : Move s e { s with procs, pc := .aborted }
  -- the end of the shell
  | eof (hh : s.handler = none) (hp : s.pc = .readline) : Move s .eof { s with pc := .exited }
  | crash {e : Event} (hh : s.handler = none) (o : List Fd) {rf : Bool} (ds : List Addr)
      (out : List Output) (tty : Pid) (hrf : s.ReadsCurrent rf) (he : e.ofMain = true) :
      Move s e { s with pc := .crashed, openFds := o, readFreed := rf, dispatched := ds, out,
                        ttyPgrp := tty }
  | abort {e : Event} (hh : s.handler = none) (sc : Scanner) (hist : List (List Char)) (m : Mask)
      (o : List Fd) {rf : Bool} (hrf : s.ReadsCurrent rf) (he : e.ofMain = true) :
      Move s e { s with pc := .aborted, scanner := sc, history := hist, mask := m, openFds := o,
                        readFreed := rf }
  -- reading a line
  | lineEmpty {expansion : List Char} {r : ParseResult} {scanner : Scanner} (out : List Output)
      (hh : s.handler = none) (hp : s.pc = .readline)
      (hr : astParseCommandLine s.scanner expansion = (r, scanner)) :
      Move s (.line expansion)
        { s with history := s.history ++ [expansion], scanner, out }
  | line {expansion : List Char} {cline : AstCommandLine} {scanner : Scanner}
      {line : List PipeNode} (hh : s.handler = none) (hp : s.pc = .readline)
      (hr : astParseCommandLine s.scanner expansion = (.ast cline, scanner))
      (hne : cline.pipes ≠ [])
      (hl : line = cline.pipes.zipIdx.map fun (pipe, i) => ⟨s.nextAddr + i, pipe⟩) :
      Move s (.line expansion)
        { s with history := s.history ++ [expansion], scanner, pc := .dispatch, line,
                 nextAddr := s.nextAddr + line.length, dispatched := [],
                 lineAddrs := line.map PipeNode.addr }
  -- the loop over the pipelines of a line
  | dispatchEnd (hh : s.handler = none) (hp : s.pc = .dispatch) (hl : s.line = []) :
      Move s .main { s with pc := .deleteDeadJobs 0 false }
  | dispatch {node : PipeNode} {rest : List PipeNode} {pc : Pc} (out : List Output)
      (hh : s.handler = none) (hp : s.pc = .dispatch) (hl : s.line = node :: rest)
      (ht : DispatchTo s.jid2job node pc) :
      Move s .main
        { s with pc, out, readFreed := s.readFreed || s.freed.contains node.addr,
                 dispatched := s.dispatched ++ [node.addr] }
  | listNext {node : PipeNode} {rest : List PipeNode} (hh : s.handler = none)
      (hp : s.pc = .listNext) (hl : s.line = node :: rest) :
      Move s .main
        { s with pc := .dispatch, line := rest, resumed := none, stops := [],
                 readFreed := s.readFreed || s.freed.contains node.addr }
  -- the builtins
  | jobsPrint {i k : Nat} {job : Job} (hh : s.handler = none) (hp : s.pc = .jobs i)
      (hn : s.jid2job.next i = some k) (hg : s.jid2job.get k = some job) :
      Move s .main
        { s with pc := .jobs (k + 1),
                 out := s.out ++ [.job job.jid job.status (printCmdline job.pipe.pipe)] }
  | jobsEnd {i : Nat} (hh : s.handler = none) (hp : s.pc = .jobs i) :
      Move s .main { s with pc := .listNext }
  | killpg {jid : Nat} {sig : Signal} {job : Job} {pending : Bool} (hh : s.handler = none)
      (hp : s.pc = .killpg jid sig) (hg : s.jid2job.get jid = some job)
      (hpend : s.sigchldPending = true → pending = true) :
      Move s .main
        { s with pc := .listNext, procs := Cush.killpg s.procs job.pgid sig,
                 killed := s.killed ++ [(job.pgid, sig)], sigchldPending := pending }
  | fgStatus {jid : Nat} (hh : s.handler = none) (hp : s.pc = .fgStatus jid) :
      Move s .main
        { s with pc := .fgCont jid,
                 jid2job := s.jid2job.modify jid fun job => { job with status := .foreground } }
  | fgCont {jid : Nat} {job : Job} {pending : Bool} (hh : s.handler = none)
      (hp : s.pc = .fgCont jid) (hg : s.jid2job.get jid = some job)
      (hpend : s.sigchldPending = true → pending = true) :
      Move s .main
        { s with pc := .give .block (.job jid job.pgid),
                 procs := Cush.killpg s.procs job.pgid .sigcont,
                 killed := s.killed ++ [(job.pgid, .sigcont)], sigchldPending := pending,
                 resumed := some job.serial, stops := [] }
  | fgBlock {jid : Nat} (hh : s.handler = none) (hp : s.pc = .fgBlock jid) :
      Move s .main { s with pc := .waitForJob jid, mask := ⟨true, s.mask.sigttou⟩ }
  | bgStatus {jid : Nat} (hh : s.handler = none) (hp : s.pc = .bgStatus jid) :
      Move s .main
        { s with pc := .bgCont jid,
                 jid2job := s.jid2job.modify jid fun job => { job with status := .background } }
  | bgCont {jid : Nat} {job : Job} {pending : Bool} (hh : s.handler = none)
      (hp : s.pc = .bgCont jid) (hg : s.jid2job.get jid = some job)
      (hpend : s.sigchldPending = true → pending = true) :
      Move s .main
        { s with pc := .listNext, procs := Cush.killpg s.procs job.pgid .sigcont,
                 killed := s.killed ++ [(job.pgid, .sigcont)], sigchldPending := pending,
                 resumed := some job.serial, stops := [] }
  -- `handle_job`
  | handleJob {node : PipeNode} (hh : s.handler = none) (hp : s.pc = .handleJob node)
      (hn : ¬ node.pipe.commands.length > 1) :
      Move s .main
        { s with pc := .blockSigchld node none,
                 readFreed := s.readFreed || s.freed.contains node.addr }
  | malloc {node : PipeNode} {fds : List Fd} (hh : s.handler = none)
      (hp : s.pc = .handleJob node) (hn : node.pipe.commands.length > 1)
      (hf : fds.length = fdLen node.pipe) :
      Move s (.malloc fds)
        { s with pc := .createPipes node fds 0,
                 readFreed := s.readFreed || s.freed.contains node.addr }
  | pipe2 {node : PipeNode} {fds fds' : List Fd} {i : Nat} {ends : Option (Fd × Fd)}
      (openFds : List Fd) (hh : s.handler = none) (hp : s.pc = .createPipes node fds i)
      (hi : i < fds.length) (hf : fds'.length = fds.length) :
      Move s (.pipe2 ends) { s with pc := .createPipes node fds' (i + 2), openFds }
  | createPipesEnd {node : PipeNode} {fds : List Fd} {i : Nat} (hh : s.handler = none)
      (hp : s.pc = .createPipes node fds i) (hi : ¬ i < fds.length) :
      Move s .main { s with pc := .blockSigchld node (some fds) }
  | blockSigchld {node : PipeNode} {fds : Option (List Fd)} (hh : s.handler = none)
      (hp : s.pc = .blockSigchld node fds) :
      Move s .main { s with pc := .addJob node fds, mask := ⟨true, s.mask.sigttou⟩ }
  | addJob {node : PipeNode} {fds : Option (List Fd)} {jid : Nat} {job : Job}
      (hh : s.handler = none) (hp : s.pc = .addJob node fds) (hj : jid = s.jid2job.firstFree 1)
      (hlt : jid < MAXJOBS)
      (hjob : job =
        { pipe := node, jid, status := if node.pipe.bgJob then .background else .foreground,
          numProcessesAlive := 0, savedTtyState := none, pgid := 0, pids := [],
          serial := s.nextSerial }) :
      Move s .main
        { s with jid2job := s.jid2job.set jid (some job), jobList := s.jobList ++ [job.serial],
                 nextSerial := s.nextSerial + 1,
                 readFreed := s.readFreed || s.freed.contains node.addr,
                 pc := .setUp
                  { node, jid, fds, itr := 0, spawned := [], todo := node.pipe.commands,
                    pgid := 0, leader := true } }
  | setUp {ctx : SpawnCtx} {cmd : AstCommand} {rest : List AstCommand} {mem : Nat → Fd}
      {fa : FileActions} {fdIndex : Nat} (hh : s.handler = none) (hp : s.pc = .setUp ctx)
      (ht : ctx.todo = cmd :: rest)
      (hs : setUpCommand s.openMax ctx.node.pipe cmd (readFds (ctx.fds.getD []) mem) ctx.itr
        s.fdIndex = (fa, fdIndex)) :
      Move s (.setUp mem)
        { s with fdIndex, readFreed := s.readFreed || s.freed.contains ctx.node.addr,
                 pc := .spawn
                  { ctx with
                    itr := if ctx.node.pipe.commands.length > 1 then ctx.itr + 1 else ctx.itr }
                  fa }
  | setUpEnd {ctx : SpawnCtx} (hh : s.handler = none) (hp : s.pc = .setUp ctx)
      (ht : ctx.todo = []) :
      Move s .main { s with pc := .closeFds ctx.node ctx.jid ctx.fds false }
  | spawned {ctx : SpawnCtx} {fa : FileActions} {cmd : AstCommand} {rest : List AstCommand}
      {job : Job} {pid : Pid} (hh : s.handler = none) (hp : s.pc = .spawn ctx fa)
      (ht : ctx.todo = cmd :: rest) (hg : s.jid2job.get ctx.jid = some job)
      (hf : s.freshPid pid = true) (he : ctx.pgid = 0 ∨ s.groupExists ctx.pgid = true) :
      Move s (.spawned pid) (s.spawnOk ctx cmd rest job pid)
  | spawnFailed {ctx : SpawnCtx} {fa : FileActions} {cmd : AstCommand} {rest : List AstCommand}
      {job : Job} {took : Option Pid} (out : List Output) (tty : Pid) (hh : s.handler = none)
      (hp : s.pc = .spawn ctx fa) (ht : ctx.todo = cmd :: rest)
      (hg : s.jid2job.get ctx.jid = some job) :
      Move s (.spawnFailed took)
        { s with out, ttyPgrp := tty, jid2job := s.jid2job.set ctx.jid none,
                 jobList := s.jobList.erase job.serial, freed := job.pipe.addr :: s.freed,
                 readFreed := s.readFreed || s.freed.contains ctx.node.addr,
                 pc := .closeFds ctx.node ctx.jid ctx.fds true }
  | closeFdsWait {node : PipeNode} {jid : Nat} {fds : Option (List Fd)} (openFds : List Fd)
      (hh : s.handler = none) (hp : s.pc = .closeFds node jid fds false)
      (hb : node.pipe.bgJob = false) (hm : s.mask.sigchld = true) :
      Move s .main
        { s with openFds, readFreed := s.readFreed || s.freed.contains node.addr,
                 pc := .waitForJob jid }
  | closeFds {node : PipeNode} {jid : Nat} {fds : Option (List Fd)} {fail : Bool}
      (openFds : List Fd) (out : List Output) (hh : s.handler = none)
      (hp : s.pc = .closeFds node jid fds fail) (hb : fail = true ∨ node.pipe.bgJob = true) :
      Move s .main
        { s with openFds, out, readFreed := s.readFreed || s.freed.contains node.addr,
                 pc := .unblockSigchld }
  | waitEnd {jid : Nat} {job : Job} (hh : s.handler = none) (hp : s.pc = .waitForJob jid)
      (hg : s.jid2job.get jid = some job) (hk : keepsWaiting job = false) :
      Move s .main { s with pc := .unblockSigchld }
  | waitFatal {jid : Nat} {job : Job} (hh : s.handler = none) (hp : s.pc = .waitForJob jid)
      (hg : s.jid2job.get jid = some job) (hk : keepsWaiting job = true) (hn : s.procs = []) :
      Move s .main { s with pc := .fatal .waitpid }
  | unblockSigchld (hh : s.handler = none) (hp : s.pc = .unblockSigchld) :
      Move s .main { s with pc := .give .block .shell, mask := ⟨false, s.mask.sigttou⟩ }
  -- `termstate_give_terminal_to`
  | giveBlock {target : GiveTarget} (hh : s.handler = none) (hp : s.pc = .give .block target) :
      Move s .main { s with pc := .give .setPgrp target, mask := ⟨s.mask.sigchld, true⟩ }
  | giveJob {jid : Nat} {pgrp : Pid} (hh : s.handler = none)
      (hp : s.pc = .give .setPgrp (.job jid pgrp)) (hg : s.groupExists pgrp = true) :
      Move s .main
        { s with ttyPgrp := pgrp, setUnblocked := s.setUnblocked || !s.mask.sigttou,
                 pc := .give .unblock (.job jid pgrp) }
  | giveFatal {jid : Nat} {pgrp : Pid} (hh : s.handler = none)
      (hp : s.pc = .give .setPgrp (.job jid pgrp)) (hg : s.groupExists pgrp = false) :
      Move s .main { s with pc := .fatal .tcsetpgrp }
  | giveShell (hh : s.handler = none) (hp : s.pc = .give .setPgrp .shell) :
      Move s .main
        { s with ttyPgrp := s.shellPgrp, setUnblocked := s.setUnblocked || !s.mask.sigttou,
                 pc := .give .restore .shell }
  | giveRestore {target : GiveTarget} (hh : s.handler = none)
      (hp : s.pc = .give .restore target) :
      Move s .main
        { s with ttyAttr := s.savedTtyState, setUnblocked := s.setUnblocked || !s.mask.sigttou,
                 pc := .give .unblock target }
  | gaveJob {jid : Nat} {pgrp : Pid} (hh : s.handler = none)
      (hp : s.pc = .give .unblock (.job jid pgrp)) :
      Move s .main { s with pc := .fgBlock jid, mask := ⟨s.mask.sigchld, false⟩ }
  | gaveShell (hh : s.handler = none) (hp : s.pc = .give .unblock .shell) :
      Move s .main { s with pc := .listNext, mask := ⟨s.mask.sigchld, false⟩ }
  -- `delete_dead_jobs`
  | deadEnd {i : Nat} {exiting : Bool} (hh : s.handler = none)
      (hp : s.pc = .deleteDeadJobs i exiting) :
      Move s .main { s with pc := if exiting then .exited else .readline }
  | deadKeep {i k : Nat} {exiting : Bool} (hh : s.handler = none)
      (hp : s.pc = .deleteDeadJobs i exiting) :
      Move s .main { s with pc := .deleteDeadJobs k exiting }
  | deadDelete {i k : Nat} {exiting : Bool} {job : Job} (out : List Output)
      (hh : s.handler = none) (hp : s.pc = .deleteDeadJobs i exiting)
      (hg : s.jid2job.get k = some job) (ha : job.numProcessesAlive = 0) :
      Move s .main
        { s with out, jid2job := s.jid2job.set k none, jobList := s.jobList.erase job.serial,
                 freed := job.pipe.addr :: s.freed, pc := .deleteDeadJobs (k + 1) exiting }

/-! ## Every step is a move -/

variable {s t : State}

theorem giveBack_eq (s : State) : s.termstateGiveTerminalBackToShell =
    { s with ttyPgrp := s.shellPgrp, ttyAttr := s.savedTtyState,
             mask := ⟨s.mask.sigchld, false⟩ } := by
  simp only [termstateGiveTerminalBackToShell, maskSigttou, setTtyPgrp, setTtyAttr, Bool.not_true,
    Bool.or_false]

theorem printJob_eq (s : State) (jid : Nat) : ∃ out, s.printJob jid = { s with out } := by
  unfold printJob
  split
  · exact ⟨s.out, rfl⟩
  · exact ⟨_, rfl⟩

section Handle

variable {jid : Nat} {job : Job} (hm : s.mask.sigchld = true) (hg : s.jid2job.get jid = some job)
include hm hg

theorem childStopped_eq (sig : Signal) : ∃ out, s.childStopped jid job sig =
    { s with out, jid2job := s.jid2job.set jid (some (job.handled s.ttyAttr (.stopped sig))),
             ttyPgrp := if job.givesBack (.stopped sig) then s.shellPgrp else s.ttyPgrp,
             ttyAttr := if job.givesBack (.stopped sig) then s.savedTtyState else s.ttyAttr,
             mask := ⟨true, if job.givesBack (.stopped sig) then false else s.mask.sigttou⟩ } := by
  unfold childStopped
  dsimp only
  obtain ⟨out, ho⟩ := printJob_eq _ jid
  refine ⟨out, ho.trans ?_⟩
  by_cases hf : job.status = .foreground
  · have hb : job.givesBack (.stopped sig) = true := decide_eq_true hf
    simp only [if_pos hf, hb, if_true, giveBack_eq, setStatus, modifyJob, Job.handled]
    rw [SlotTable.modify_of_get hg]
    split <;>
      rw [SlotTable.modify_of_get (SlotTable.get_set_self _ _ _), SlotTable.set_set, hm]
  · have hb : job.givesBack (.stopped sig) = false := decide_eq_false hf
    simp only [if_neg hf, hb, Bool.false_eq_true, if_false, setStatus, modifyJob, Job.handled]
    split <;> rw [SlotTable.modify_of_get hg, ← hm]

theorem childExited_eq (code : Nat) : s.childExited jid job =
    { s with
      jid2job := s.jid2job.set jid (some (job.handled s.ttyAttr (.terminated (.exited code))))
      ttyPgrp := if job.givesBack (.terminated (.exited code)) then s.shellPgrp else s.ttyPgrp
      ttyAttr := if job.givesBack (.terminated (.exited code)) then s.savedTtyState else s.ttyAttr
      mask :=
        ⟨true, if job.givesBack (.terminated (.exited code)) then false else s.mask.sigttou⟩ } := by
  unfold childExited
  dsimp only
  by_cases hf : job.status = .foreground
  · have hnb : ¬ (job.status = .background ∧ job.numProcessesAlive = 1) := by
      rw [hf]
      exact fun h => nomatch h.1
    by_cases h1 : job.numProcessesAlive = 1
    · have hb : job.givesBack (.terminated (.exited code)) = true := decide_eq_true ⟨hf, h1⟩
      simp only [if_pos hf, if_pos h1, hb, if_true, giveBack_eq, modifyJob, Job.handled, if_neg hnb]
      rw [SlotTable.modify_of_get hg, hm]
    · have hb : job.givesBack (.terminated (.exited code)) = false :=
        decide_eq_false fun h => h1 h.2
      simp only [if_pos hf, if_neg h1, hb, Bool.false_eq_true, if_false, modifyJob, Job.handled,
        if_neg hnb]
      rw [SlotTable.modify_of_get hg, ← hm]
  · have hb : job.givesBack (.terminated (.exited code)) = false := decide_eq_false fun h => hf h.1
    simp only [if_neg hf, hb, Bool.false_eq_true, if_false, setStatus, modifyJob, Job.handled]
    split
    · rw [SlotTable.modify_of_get hg, SlotTable.modify_of_get (SlotTable.get_set_self _ _ _),
        SlotTable.set_set, ← hm]
    · rw [SlotTable.modify_of_get hg, ← hm]

theorem childSignaled_eq (sig : Signal) : ∃ out, s.childSignaled jid job sig =
    { s with
      out
      jid2job := s.jid2job.set jid (some (job.handled s.ttyAttr (.terminated (.signaled sig))))
      ttyPgrp := if job.givesBack (.terminated (.signaled sig)) then s.shellPgrp else s.ttyPgrp
      ttyAttr := if job.givesBack (.terminated (.signaled sig)) then s.savedTtyState else s.ttyAttr
      mask := ⟨true,
        if job.givesBack (.terminated (.signaled sig)) then false else s.mask.sigttou⟩ } := by
  unfold childSignaled
  dsimp only
  refine ⟨s.out ++ [Output.signaled sig], ?_⟩
  by_cases hb : job.status = .foreground ∧ job.numProcessesAlive = 1
  · have hback : job.givesBack (.terminated (.signaled sig)) = true := decide_eq_true hb
    simp only [if_pos hb.1, if_pos hb.2, hback, if_true, giveBack_eq, modifyJob, Job.handled,
      State.print]
    rw [SlotTable.modify_of_get hg, hm]
  · have hback : job.givesBack (.terminated (.signaled sig)) = false := decide_eq_false hb
    have hs : (if job.status = .foreground then
          if job.numProcessesAlive = 1 then s.termstateGiveTerminalBackToShell else s
        else s) = s := by
      split
      · rename_i hf
        exact if_neg fun h1 => hb ⟨hf, h1⟩
      · rfl
    simp only [hs, hback, Bool.false_eq_true, if_false, modifyJob, Job.handled, State.print]
    rw [SlotTable.modify_of_get hg, ← hm]

end Handle

theorem waitChild_move {e : Event} {pid : Pid} (hwait : s.Waiting e pid)
    (h : s.waitChild pid = some t) : Move s e t := by
  unfold waitChild at h
  cases hw : waitpid s.procs pid with
  | none => rw [hw] at h; cases h
  | some x =>
    obtain ⟨status, procs⟩ := x
    rw [hw, Option.map_some, Option.some.injEq] at h
    subst h
    dsimp only [handleChildStatus]
    by_cases hm : s.mask.sigchld = true
    · rw [if_pos hm]
      cases hj : getJobFromPid s.jid2job pid with
      | none => exact .lost hwait hw hj
      | some jid =>
        obtain ⟨⟨job, hg, -⟩, -⟩ := SlotTable.find_some hj
        dsimp only
        rw [hg]
        cases status with
        | stopped sig =>
          obtain ⟨out, ho⟩ := childStopped_eq (s := { s with procs }) hm hg sig
          dsimp only
          rw [ho]
          exact .handled out hwait hm hw hj hg
        | terminated status =>
          cases status with
          | exited code =>
            dsimp only
            rw [childExited_eq (s := { s with procs }) hm hg code]
            exact .handled s.out hwait hm hw hj hg
          | signaled sig =>
            obtain ⟨out, ho⟩ := childSignaled_eq (s := { s with procs }) hm hg sig
            dsimp only
            rw [ho]
            exact .handled out hwait hm hw hj hg
    · rw [if_neg hm]
      exact .unblocked hwait hw (Bool.eq_false_iff.2 hm)

theorem getJobFromJid_get {jid2job : SlotTable Job} {jid : Int} {job : Job}
    (h : getJobFromJid jid2job jid = some job) : jid2job.get jid.toNat = some job := by
  unfold getJobFromJid at h
  split at h
  · exact h
  · cases h

theorem namedJob_eq {jid2job : SlotTable Job} {pipe : AstPipeline} {cmd : AstCommand}
    {cmds : List AstCommand} {name arg : Word} {args : List Word} {b : Builtin} {job : Job}
    (hc : pipe.commands = cmd :: cmds) (ha : cmd.argv = name :: arg :: args)
    (hb : Builtin.ofName name = some b) (hn : b.namesJob = true)
    (hj : getJobFromJid jid2job (atoi arg) = some job) :
    namedJob jid2job pipe = some (atoi arg).toNat := by
  obtain ⟨argv, dup⟩ := cmd
  cases ha
  unfold namedJob
  rw [hc]
  dsimp only
  rw [hb, Option.any_some, if_pos hn, hj]
  rfl

theorem builtin_eq {pipe : AstPipeline} {cmd : AstCommand} {cmds : List AstCommand} {name : Word}
    {args : List Word} {b : Builtin} (hc : pipe.commands = cmd :: cmds)
    (ha : cmd.argv = name :: args) (hb : Builtin.ofName name = some b) :
    pipe.builtin = some b := by
  obtain ⟨argv, dup⟩ := cmd
  cases ha
  unfold AstPipeline.builtin
  rw [hc]
  exact hb

section Builtins

variable (s : State) {node : PipeNode} {cmd : AstCommand} {cmds : List AstCommand} {name : Word}
  {args : List Word} (hc : node.pipe.commands = cmd :: cmds) (ha : cmd.argv = name :: args)
include hc ha

/-- The argument checks of `kill`, `stop` and `fg`. -/
theorem withJob_cases {b : Builtin} (hb : Builtin.ofName name = some b) (hn : b.namesJob = true)
    (pc : Nat → Pc) (o : Job → List Output)
    (ht : ∀ jid job, namedJob s.jid2job node.pipe = some jid → s.jid2job.get jid = some job →
      DispatchTo s.jid2job node (pc jid)) :
    ∃ pc' out, (s.withJob name args fun jid job => { s with pc := pc jid, out := o job }) =
      { s with pc := pc', out } ∧ DispatchTo s.jid2job node pc' := by
  cases args with
  | nil => exact ⟨_, _, rfl, .listNext⟩
  | cons arg args =>
    dsimp only [State.withJob]
    cases hj : getJobFromJid s.jid2job (atoi arg) with
    | none => exact ⟨_, _, rfl, .listNext⟩
    | some job =>
      exact ⟨_, _, rfl, ht _ job (namedJob_eq hc ha hb hn hj) (getJobFromJid_get hj)⟩

theorem handleBuiltin_cases :
    (∃ pc out, s.handleBuiltin node name args = { s with pc, out } ∧
      DispatchTo s.jid2job node pc) ∨ s.handleBuiltin node name args = s.crash := by
  unfold handleBuiltin
  cases hb : Builtin.ofName name with
  | none => exact Or.inl ⟨_, _, rfl, .handleJob⟩
  | some b =>
    cases b with
    | jobs => exact Or.inl ⟨_, _, rfl, .jobs (builtin_eq hc ha hb)⟩
    | kill =>
      exact Or.inl (withJob_cases s hc ha hb rfl (fun jid => .killpg jid .sigterm) (fun _ => s.out)
        fun _ _ hn hj => .killpg .sigterm hn hj (by decide))
    | stop =>
      exact Or.inl (withJob_cases s hc ha hb rfl (fun jid => .killpg jid .sigtstp) (fun _ => s.out)
        fun _ _ hn hj => .killpg .sigtstp hn hj (by decide))
    | fg =>
      exact Or.inl (withJob_cases s hc ha hb rfl (fun jid => .fgStatus jid)
        (fun job => s.out ++ [Output.cmdline (printCmdline job.pipe.pipe)])
        fun _ _ hn hj => .fg hn hj)
    | bg =>
      cases args with
      | nil => exact Or.inr rfl
      | cons arg args =>
        dsimp only [builtinBg]
        cases hj : getJobFromJid s.jid2job (atoi arg) with
        | none => exact Or.inr rfl
        | some job =>
          exact Or.inl ⟨_, _, rfl,
            .bg (namedJob_eq hc ha hb rfl hj) (getJobFromJid_get hj)⟩
    | history => exact Or.inl ⟨_, _, rfl, .listNext⟩
    | exit => exact Or.inl ⟨_, _, rfl, .exit⟩

end Builtins

theorem dispatch_move (hh : s.handler = none) (hp : s.pc = .dispatch) :
    Move s .main s.dispatch := by
  unfold dispatch
  split
  · rename_i hl
    exact .dispatchEnd hh hp hl
  · rename_i node rest hl
    have hrf : s.ReadsCurrent (s.readFreed || s.freed.contains node.addr) :=
      Or.inr ⟨node, Or.inr ⟨hp, by rw [hl]; rfl⟩, rfl⟩
    dsimp only
    split
    · exact .crash hh s.openFds _ s.out s.ttyPgrp hrf rfl
    · rename_i cmd cmds hc
      split
      · exact .crash hh s.openFds _ s.out s.ttyPgrp hrf rfl
      · rename_i name args ha
        rcases handleBuiltin_cases
          { s.readNode node.addr with dispatched := s.dispatched ++ [node.addr] } hc ha with
          ⟨pc, out, he, ht⟩ | he
        · rw [he]
          exact .dispatch out hh hp hl ht
        · rw [he]
          exact .crash hh s.openFds _ s.out s.ttyPgrp hrf rfl

theorem forJob_move {e : Event} {jid : Nat} {k : Job → State} (hh : s.handler = none)
    (he : e.ofMain = true) (hk : ∀ job, s.jid2job.get jid = some job → Move s e (k job)) :
    Move s e (s.forJob jid k) := by
  unfold forJob
  cases hg : s.jid2job.get jid with
  | none => exact .crash hh s.openFds s.dispatched s.out s.ttyPgrp (Or.inl rfl) he
  | some job => exact hk job hg

theorem deleteDeadJobs_move {i : Nat} {exiting : Bool} (hh : s.handler = none)
    (hp : s.pc = .deleteDeadJobs i exiting) : Move s .main (s.deleteDeadJobs i exiting) := by
  unfold deleteDeadJobs
  split
  · exact .deadEnd hh hp
  · rename_i k hk
    obtain ⟨-, job, hg⟩ := SlotTable.next_some hk
    simp only [hg]
    by_cases ha : job.numProcessesAlive = 0
    · rw [if_pos ha]
      by_cases hd : job.status = .done
      · rw [if_pos hd]
        simp only [deleteJob, forJob, State.print, hg]
        exact .deadDelete _ hh hp hg ha
      · rw [if_neg hd]
        simp only [deleteJob, forJob, hg]
        exact .deadDelete s.out hh hp hg ha
    · rw [if_neg ha]
      exact .deadKeep hh hp

theorem spawnFail_move {ctx : SpawnCtx} {fa : FileActions} {cmd : AstCommand}
    {rest : List AstCommand} {took : Option Pid} (hh : s.handler = none)
    (hp : s.pc = .spawn ctx fa) (ht : ctx.todo = cmd :: rest) :
    Move s (.spawnFailed took) (s.spawnFail ctx cmd took) := by
  unfold spawnFail
  simp only [deleteJob, forJob, State.print, readNode]
  cases hg : s.jid2job.get ctx.jid with
  | none =>
    exact .crash hh s.openFds s.dispatched _ _
      (Or.inr ⟨ctx.node, Or.inl (by rw [hp]; rfl), rfl⟩) rfl
  | some job => exact .spawnFailed _ _ hh hp ht hg

theorem enterWaitForJob_cases (s : State) (jid : Nat) :
    (s.mask.sigchld = true ∧ s.enterWaitForJob jid = { s with pc := .waitForJob jid }) ∨
      s.enterWaitForJob jid = s.abort := by
  unfold enterWaitForJob
  cases hm : s.mask.sigchld with
  | true => exact Or.inl ⟨rfl, rfl⟩
  | false => exact Or.inr rfl

theorem closeFds_move {node : PipeNode} {jid : Nat} {fds : Option (List Fd)} {fail : Bool}
    (hh : s.handler = none) (hp : s.pc = .closeFds node jid fds fail) :
    Move s .main (s.closeFds node jid fds fail) := by
  unfold closeFds
  have hrf : s.ReadsCurrent (s.readFreed || s.freed.contains node.addr) :=
    Or.inr ⟨node, Or.inl (by rw [hp]; rfl), rfl⟩
  dsimp only
  cases fail with
  | true =>
    simp only [readNode, Bool.not_true, Bool.and_false, Bool.false_eq_true, if_false]
    exact .closeFds _ s.out hh hp (Or.inl rfl)
  | false =>
    cases hb : node.pipe.bgJob with
    | true =>
      simp only [forJob, readNode, Bool.not_true, Bool.not_false, Bool.false_and, if_true,
        Bool.false_eq_true, if_false]
      cases hg : s.jid2job.get jid with
      | none => exact .crash hh _ s.dispatched s.out s.ttyPgrp hrf rfl
      | some job => exact .closeFds _ _ hh hp (Or.inr hb)
    | false =>
      simp only [readNode, Bool.not_false, Bool.and_self, if_true]
      rcases enterWaitForJob_cases _ jid with ⟨hm, he⟩ | he
      · rw [he]
        exact .closeFdsWait _ hh hp hb hm
      · rw [he]
        exact .abort hh s.scanner s.history s.mask _ hrf rfl

theorem give_move {stage : GiveStage} {target : GiveTarget} (hh : s.handler = none)
    (hp : s.pc = .give stage target) : Move s .main (s.give stage target) := by
  unfold give
  cases stage with
  | block => exact .giveBlock hh hp
  | setPgrp =>
    cases target with
    | job jid pgrp =>
      dsimp only
      cases hg : s.groupExists pgrp with
      | true => exact .giveJob hh hp hg
      | false => exact .giveFatal hh hp hg
    | shell => exact .giveShell hh hp
  | restore => exact .giveRestore hh hp
  | unblock =>
    cases target with
    | job jid pgrp => exact .gaveJob hh hp
    | shell => exact .gaveShell hh hp

theorem readLine_move {expansion : List Char} (hh : s.handler = none) (hp : s.pc = .readline) :
    Move s (.line expansion) (s.readLine expansion) := by
  unfold readLine
  cases hr : astParseCommandLine s.scanner expansion with
  | mk r scanner =>
  have abort : Move s (.line expansion)
      { s with history := s.history ++ [expansion], scanner, pc := .aborted } :=
    .abort hh scanner (s.history ++ [expansion]) s.mask s.openFds (Or.inl rfl) rfl
  cases r with
  | abort a => exact abort
  | stuck => exact abort
  | null msg =>
    cases msg with
    | none => exact .lineEmpty s.out hh hp hr
    | some msg => exact .lineEmpty _ hh hp hr
  | ast cline =>
    dsimp only
    by_cases hne : cline.pipes = []
    · rw [if_pos hne]
      exact .lineEmpty s.out hh hp hr
    · rw [if_neg hne]
      exact .line hh hp hr hne rfl

theorem addJob_move {node : PipeNode} {fds : Option (List Fd)} (hh : s.handler = none)
    (hp : s.pc = .addJob node fds) : Move s .main (s.addJob node fds) := by
  unfold addJob
  dsimp only
  by_cases hlt : s.jid2job.firstFree 1 < MAXJOBS
  · rw [if_pos hlt]
    exact .addJob hh hp rfl hlt rfl
  · rw [if_neg hlt]
    exact .abort hh s.scanner s.history s.mask s.openFds (Or.inl rfl) rfl

/-- `killpg` leaves a pending `SIGCHLD` pending. -/
theorem killpg_pending (s : State) {pgrp : Pid} {sig : Signal} (h : s.sigchldPending = true) :
    (s.killpg pgrp sig).sigchldPending = true := by
  unfold State.killpg
  dsimp only
  rw [h, Bool.true_or]

theorem mainStep_move (hh : s.handler = none) (h : s.mainStep = some t) : Move s .main t := by
  unfold mainStep at h
  cases hp : s.pc <;> rw [hp] at h <;> dsimp only at h
  case readline => cases h
  case createPipes => cases h
  case spawn => cases h
  case exited => cases h
  case fatal => cases h
  case crashed => cases h
  case aborted => cases h
  case dispatch =>
    cases h
    exact dispatch_move hh hp
  case listNext =>
    cases h
    unfold State.listNext
    split
    · exact .crash hh s.openFds s.dispatched s.out s.ttyPgrp (Or.inl rfl) rfl
    · rename_i node rest hl
      exact .listNext hh hp hl
  case jobs i =>
    cases h
    unfold jobsNext
    split
    · exact .jobsEnd hh hp
    · rename_i k hk
      obtain ⟨-, job, hg⟩ := SlotTable.next_some hk
      unfold printJob
      rw [hg]
      exact .jobsPrint hh hp hk hg
  case killpg jid sig =>
    cases h
    exact forJob_move hh rfl fun job hg => .killpg hh hp hg (killpg_pending s)
  case fgStatus jid =>
    cases h
    exact .fgStatus hh hp
  case fgCont jid =>
    cases h
    exact forJob_move hh rfl fun job hg => .fgCont hh hp hg (killpg_pending s)
  case fgBlock jid =>
    cases h
    exact .fgBlock hh hp
  case bgStatus jid =>
    cases h
    exact .bgStatus hh hp
  case bgCont jid =>
    cases h
    exact forJob_move hh rfl fun job hg => .bgCont hh hp hg (killpg_pending s)
  case handleJob node =>
    split at h
    · cases h
    · rename_i hn
      cases h
      exact .handleJob hh hp hn
  case blockSigchld node fds =>
    cases h
    exact .blockSigchld hh hp
  case addJob node fds =>
    cases h
    exact addJob_move hh hp
  case setUp ctx =>
    split at h
    · rename_i ht
      cases h
      exact .setUpEnd hh hp ht
    · cases h
  case closeFds node jid fds fail =>
    cases h
    exact closeFds_move hh hp
  case waitForJob jid =>
    split at h
    · cases h
      exact .crash hh s.openFds s.dispatched s.out s.ttyPgrp (Or.inl rfl) rfl
    · rename_i job hg
      split at h
      · rename_i hk
        split at h
        · rename_i hn
          cases h
          exact .waitFatal hh hp hg hk hn
        · cases h
      · rename_i hk
        cases h
        exact .waitEnd hh hp hg (Bool.eq_false_iff.2 hk)
  case unblockSigchld =>
    cases h
    exact .unblockSigchld hh hp
  case give stage target =>
    cases h
    exact give_move hh hp
  case deleteDeadJobs i exiting =>
    cases h
    exact deleteDeadJobs_move hh hp

theorem answerStep_move {e : Event} (hh : s.handler = none) (h : s.answerStep e = some t) :
    Move s e t := by
  unfold answerStep at h
  cases e <;> dsimp only at h
  case line expansion =>
    split at h
    · rename_i hp
      cases h
      exact readLine_move hh hp
    · cases h
  case eof =>
    split at h
    · rename_i hp
      cases h
      exact .eof hh hp
    · cases h
  case noUser =>
    split at h
    · cases h
      exact .crash hh s.openFds s.dispatched s.out s.ttyPgrp (Or.inl rfl) rfl
    · cases h
  case main =>
    split at h
    · rename_i node fds i hp
      split at h
      · cases h
      · rename_i hi
        cases h
        exact .createPipesEnd hh hp hi
    · exact mainStep_move hh h
  case malloc fds =>
    split at h
    · rename_i node hp
      unfold State.malloc at h
      split at h
      · rename_i hn
        cases h
        exact .malloc hh hp hn.1 hn.2
      · cases h
    · cases h
  case pipe2 ends =>
    split at h
    · rename_i node fds i hp
      split at h
      · rename_i hi
        unfold createPipe at h
        split at h
        · cases h
          exact .pipe2 s.openFds hh hp hi rfl
        · split at h
          · cases h
            exact .pipe2 _ hh hp hi (by simp)
          · cases h
      · cases h
    · cases h
  case setUp mem =>
    split at h
    · rename_i ctx hp
      split at h
      · cases h
      · rename_i cmd rest ht
        cases h
        exact .setUp hh hp ht rfl
    · cases h
  case spawned pid =>
    split at h
    · rename_i ctx fa hp
      split at h
      · rename_i cmd rest ht
        split at h
        · rename_i hf
          cases h
          exact forJob_move hh rfl fun job hg => .spawned hh hp ht hg hf.1 hf.2
        · cases h
      · cases h
    · cases h
  case spawnFailed took =>
    split at h
    · rename_i ctx fa hp
      split at h
      · rename_i cmd rest ht
        cases h
        exact spawnFail_move hh hp ht
      · cases h
    · cases h
  case waitpid pid =>
    split at h
    · rename_i jid hp
      split at h
      · rename_i job hg
        split at h
        · rename_i hk
          exact waitChild_move ⟨rfl, hh, jid, job, hp, hg, hk⟩ h
        · cases h
      · cases h
    · cases h
  all_goals cases h

/-- The main program goes on where no handler runs. -/
theorem step_main (h : step s .main = some t) :
    s.pc.live = true ∧ s.handler = none ∧ s.answerStep .main = some t := by
  unfold step at h
  split at h
  · rename_i hlive
    dsimp only at h
    split at h
    · rename_i hh
      exact ⟨hlive, Option.isNone_iff_eq_none.1 hh, h⟩
    · cases h
  · cases h

/-- A round of the loop over the pipelines of a line. -/
theorem step_dispatch (hp : s.pc = .dispatch) (h : step s .main = some t) : t = s.dispatch := by
  obtain ⟨-, -, ha⟩ := step_main h
  unfold State.answerStep State.mainStep at ha
  rw [hp] at ha
  exact (Option.some.inj ha).symm

theorem dispatch_command {node : PipeNode} {rest : List PipeNode} {cmd : AstCommand}
    {cmds : List AstCommand} {name : Word} {args : List Word} (hl : s.line = node :: rest)
    (hc : node.pipe.commands = cmd :: cmds) (ha : cmd.argv = name :: args) :
    s.dispatch = State.handleBuiltin
      { s.readNode node.addr with dispatched := s.dispatched ++ [node.addr] } node name args := by
  unfold State.dispatch
  rw [hl]
  dsimp only
  rw [hc]
  dsimp only
  rw [ha]

/-- The call of `killpg` by `kill` and `stop`. -/
theorem step_killpg {jid : Nat} {sig : Signal} {job : Job} (hp : s.pc = .killpg jid sig)
    (hg : s.jid2job.get jid = some job) (h : step s .main = some t) :
    t = { s.killpg job.pgid sig with pc := .listNext } := by
  obtain ⟨-, -, ha⟩ := step_main h
  unfold State.answerStep State.mainStep at ha
  rw [hp] at ha
  simp only [State.forJob, hg] at ha
  exact (Option.some.inj ha).symm

/-- The call of `killpg` by `fg`. -/
theorem step_fgCont {jid : Nat} {job : Job} (hp : s.pc = .fgCont jid)
    (hg : s.jid2job.get jid = some job) (h : step s .main = some t) :
    t = { s.sendSigcont job with pc := .give .block (.job jid job.pgid) } := by
  obtain ⟨-, -, ha⟩ := step_main h
  unfold State.answerStep State.mainStep at ha
  rw [hp] at ha
  simp only [State.forJob, hg] at ha
  exact (Option.some.inj ha).symm

/-- **Every step is a move** of a shell that still runs. -/
theorem step_move {e : Event} (h : step s e = some t) : s.pc.live = true ∧ Move s e t := by
  unfold step at h
  split at h
  · rename_i hlive
    refine ⟨hlive, ?_⟩
    cases e <;> dsimp only at h
    case child pid c =>
      dsimp only [environmentStep, childChange] at h
      cases hc : changeProc s.procs pid c with
      | none => rw [hc] at h; cases h
      | some procs =>
        rw [hc] at h
        cases h
        exact .child hc
    case sigchld =>
      cases h
      exact .sigchld
    case setAttr pid attr =>
      dsimp only [environmentStep, State.setAttr] at h
      split at h
      · rename_i hf
        cases h
        exact .setAttr hf
      · cases h
    case others pgrps =>
      cases h
      exact .others
    case sigchldHandler =>
      split at h
      · rename_i hh
        unfold State.sigchldHandler at h
        split at h
        · rename_i hm
          cases h
          exact .handlerStart (Option.isNone_iff_eq_none.1 hh) hm.2
        · cases h
      · cases h
    case reap pid =>
      split at h
      · rename_i hh
        exact waitChild_move ⟨rfl, hh⟩ h
      · cases h
    case handlerReturn =>
      split at h
      · rename_i mask hh
        unfold State.handlerReturn at h
        split at h
        · cases h
        · rename_i hr
          cases h
          exact .handlerReturn hh (Bool.eq_false_iff.2 hr)
      · cases h
    all_goals
      split at h
      · rename_i hh
        exact answerStep_move (Option.isNone_iff_eq_none.1 hh) h
      · cases h
  · cases h

end Cush
