import Cush.Ast

/-!
# Processes and signals

What the shell relies on of the kernel: the states of its children, `waitpid`, and signals sent to a
process group. A child that has terminated stays a zombie until it is waited for. A stopped child is
reported once; continuing it discards a stop that has not been reported and the stop signals that
are pending. Other signals sent to a stopped child stay pending, except for `SIGKILL`.
-/

namespace Cush

abbrev Pid := Nat

/-- The terminal settings (`struct termios`), which the shell saves and restores as a whole. -/
abbrev Termios := Nat

inductive Signal where
  | sigterm
  | sigkill
  | sigcont
  | sigstop
  | sigtstp
  | sigttin
  | sigttou
  | sigsegv
  | sigabrt
  | sigfpe
  | other (n : Nat)
  deriving Repr, DecidableEq

def Signal.isStop : Signal → Bool
  | .sigstop | .sigtstp | .sigttin | .sigttou => true
  | _ => false

/-- How a child terminates. -/
inductive ExitStatus where
  | exited (code : Nat)
  | signaled (sig : Signal)
  deriving Repr, DecidableEq

/-- What `waitpid` reports of a child. -/
inductive WaitStatus where
  | terminated (status : ExitStatus)
  | stopped (sig : Signal)
  deriving Repr, DecidableEq

inductive ProcState where
  | running
  | stopped (sig : Signal) (reported : Bool)
  | zombie (status : ExitStatus)
  deriving Repr, DecidableEq

/-- A child of the shell that has not been reaped. `owner` is the job that spawned it. -/
structure Proc where
  pid : Pid
  pgid : Pid
  owner : Nat
  state : ProcState
  pending : List Signal
  deriving Repr, DecidableEq

/-! ## State changes of a child -/

/-- What can happen to a child between two steps of the shell. -/
inductive Change where
  | exit (code : Nat)
  | kill (sig : Signal)
  | stop (sig : Signal)
  | cont
  deriving Repr, DecidableEq

def Proc.change (p : Proc) : Change → Option Proc
  | .exit code =>
    match p.state with
    | .running => some { p with state := .zombie (.exited code), pending := [] }
    | _ => none
  | .kill sig =>
    if sig.isStop || sig == .sigcont then none
    else
      match p.state with
      | .running => some { p with state := .zombie (.signaled sig), pending := [] }
      | .stopped _ _ =>
        if sig = .sigkill then some { p with state := .zombie (.signaled sig), pending := [] }
        else none
      | .zombie _ => none
  | .stop sig =>
    match p.state with
    | .running =>
      if sig.isStop then
        some { p with state := .stopped sig false, pending := p.pending.filter (· ≠ sig) }
      else none
    | _ => none
  | .cont =>
    match p.state with
    | .stopped _ _ =>
      some { p with state := .running, pending := p.pending.filter fun s => !s.isStop }
    | _ => none

/-- A signal sent to a child. Those that do not act at once are pending until they are delivered. -/
def Proc.signal (p : Proc) (sig : Signal) : Proc :=
  match p.state with
  | .zombie _ => p
  | _ =>
    if sig = .sigcont then
      match p.state with
      | .stopped _ _ =>
        { p with state := .running, pending := p.pending.filter fun s => !s.isStop }
      | _ => { p with pending := p.pending.filter fun s => !s.isStop }
    else { p with pending := p.pending ++ [sig] }

/-- The children of the shell after `killpg`. -/
def killpg (procs : List Proc) (pgrp : Pid) (sig : Signal) : List Proc :=
  procs.map fun p => if p.pgid = pgrp then p.signal sig else p

/-- A state change of one child. -/
def changeProc (procs : List Proc) (pid : Pid) (c : Change) : Option (List Proc) :=
  match procs.find? fun p => p.pid = pid with
  | none => none
  | some p => (p.change c).map fun p' => procs.map fun q => if q.pid = pid then p' else q

/-! ## `waitpid` -/

/-- The status a child has to report. -/
def Proc.waitStatus (p : Proc) : Option WaitStatus :=
  match p.state with
  | .running => none
  | .stopped sig reported => if reported then none else some (.stopped sig)
  | .zombie status => some (.terminated status)

/-- `waitpid(-1, &status, WUNTRACED)` where it returns `pid`: the status, and the children after it.
A zombie is reaped. -/
def waitpid (procs : List Proc) (pid : Pid) : Option (WaitStatus × List Proc) :=
  match procs.find? fun p => p.pid = pid with
  | none => none
  | some p =>
    match p.waitStatus with
    | none => none
    | some (.stopped sig) =>
      some (.stopped sig,
        procs.map fun q => if q.pid = pid then { q with state := .stopped sig true } else q)
    | some (.terminated status) =>
      some (.terminated status, procs.filter fun q => q.pid ≠ pid)

/-- Whether `waitpid` with `WNOHANG` would report a child. -/
def reportable (procs : List Proc) : Bool :=
  procs.any fun p => p.waitStatus.isSome

end Cush
