import Cush.Spawn.Spawni

/-!
# Running a command (`_posix_spawn_run` in `cush.c`)

The attributes of a command: it is put into the group of its job, and the first command of a job in
the foreground takes the terminal for the group.
-/

namespace Cush

open Spawni

/-- What `_posix_spawn_run` prints before it returns -1. -/
inductive SpawnMessage where
  | flagError
  | terminalControlError
  | setGroup
  | noSuchFile (argv0 : Word)
  deriving Repr, DecidableEq

def checkAttr (message : SpawnMessage) (r : Errno × SpawnAttr) : Except SpawnMessage SpawnAttr :=
  if r.1 ≠ 0 then .error message else .ok r.2

def spawnAttr (pgid : Pid) (leader fg : Bool) (ttyFd : Nat) : Except SpawnMessage SpawnAttr := do
  let attr := SpawnAttr.init
  let attr ←
    if leader && fg then do
      let attr ← checkAttr .flagError
        (posixSpawnattrSetflags attr (POSIX_SPAWN_TCSETPGROUP ||| POSIX_SPAWN_SETPGROUP))
      checkAttr .terminalControlError (posixSpawnattrTcsetpgrp attr ttyFd)
    else checkAttr .flagError (posixSpawnattrSetflags attr POSIX_SPAWN_SETPGROUP)
  checkAttr .setGroup (posixSpawnattrSetpgroup attr pgid)

/-- What is left when `_posix_spawn_run` returns. -/
structure SpawnRun where
  ret : Int
  printed : List SpawnMessage
  caller : Caller
  child : Option (Task × ProcState)

/-- The return from `posix_spawnp`. -/
def spawnReturn (argv : List Word) (r : Spawned) : SpawnRun :=
  if r.ec ≠ 0 then
    { ret := -1, printed := [.noSuchFile (argv.headD [])], caller := r.caller, child := r.child }
  else { ret := 0, printed := [], caller := r.caller, child := r.child }

/-- `_posix_spawn_run`; none where `posix_spawnp` does not return. -/
def posixSpawnRun (a : Answers) (pgid : Pid) (argv : List Word) (leader fg : Bool)
    (fa : FileActions) (ttyFd : Nat) (c : Caller) : Option SpawnRun :=
  match spawnAttr pgid leader fg ttyFd with
  | .error message => some { ret := -1, printed := [message], caller := c, child := none }
  | .ok attr =>
    (spawnix a (some (fa.map .ofFileAction)) (some attr) argv c).map (spawnReturn argv)

end Cush
