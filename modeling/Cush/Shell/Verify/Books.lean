import Cush.Lib.ProcessLedger
import Cush.Shell.Verify.Children
import Cush.Shell.Verify.Context

/-!
# The table of jobs as a ledger of the children

A job is an account and the children of the shell are the children of a ledger. `Move.booked` shows
that every step of the shell is a step of the ledger: a spawned process is entered, a reaped one is
booked on the job that `_get_job_from_pid` finds, `add_job` opens and `delete_job` closes an
account.
-/

namespace Cush

open ProcessLedger

def Job.account (job : Job) : Account Pid :=
  ⟨job.serial, job.pids, job.numProcessesAlive, job.pgid⟩

def Proc.child (p : Proc) : Child Pid :=
  ⟨p.pid, p.pgid, p.owner⟩

namespace State

def ledger (s : State) : Ledger Pid where
  account jid := (s.jid2job.get jid).map Job.account
  children := s.procs.map Proc.child
  next := s.nextSerial

variable {s t : State} {e : Event}

/-! ## The table and the children -/

theorem account_of_get {jid : Nat} {job : Job} (h : s.jid2job.get jid = some job) :
    s.ledger.account jid = some job.account :=
  congrArg (Option.map Job.account) h

theorem get_of_account {jid : Nat} {a : Account Pid} (h : s.ledger.account jid = some a) :
    ∃ job, s.jid2job.get jid = some job ∧ job.account = a :=
  Option.map_eq_some_iff.1 h

theorem mem_children {c : Child Pid} (h : c ∈ s.ledger.children) : ∃ p ∈ s.procs, p.child = c :=
  List.mem_map.1 h

theorem children_mem {p : Proc} (h : p ∈ s.procs) : p.child ∈ s.ledger.children :=
  List.mem_map_of_mem h

/-- Writing a table entry writes the account. -/
theorem account_set (jid2job : SlotTable Job) (jid : Nat) (v : Option Job) :
    (fun i => ((jid2job.set jid v).get i).map Job.account) =
      fun i => if i = jid then v.map Job.account else (jid2job.get i).map Job.account := by
  funext i
  rw [SlotTable.get_set]
  split <;> rfl

/-- A change of jobs that the accounts do not record. -/
theorem account_modify (jid2job : SlotTable Job) (jid : Nat) {f : Job → Job}
    (hf : ∀ job, (f job).account = job.account) :
    (fun i => ((jid2job.modify jid f).get i).map Job.account) =
      fun i => (jid2job.get i).map Job.account := by
  funext i
  rw [SlotTable.get_modify]
  split
  · rw [Option.map_map]
    exact congrArg (Option.map · (jid2job.get i)) (funext hf)
  · rfl

theorem map_child {procs procs' : List Proc} {f : Proc → Proc} (h : procs' = procs.map f)
    (hf : ∀ p ∈ procs, p.Same (f p)) : procs'.map Proc.child = procs.map Proc.child := by
  rw [h, List.map_map]
  refine List.map_congr_left fun p hp => ?_
  have hs := hf p hp
  simp only [Function.comp, Proc.child, hs.pid, hs.pgid, hs.owner]

theorem killpg_child (procs : List Proc) (pgrp : Pid) (sig : Signal) :
    (Cush.killpg procs pgrp sig).map Proc.child = procs.map Proc.child := by
  refine map_child rfl fun p _ => ?_
  split
  · exact p.signal_same sig
  · exact .refl p

theorem changeProc_child {procs procs' : List Proc} {pid : Pid} {c : Change}
    (hn : (procs.map Proc.pid).Nodup) (h : changeProc procs pid c = some procs') :
    procs'.map Proc.child = procs.map Proc.child := by
  obtain ⟨p, p', hp, hpid, hc, rfl⟩ := changeProc_cases h
  refine map_child rfl fun q hq => ?_
  split
  · rename_i hqp
    rw [eq_of_pid hn hq hp (hqp.trans hpid.symm)]
    exact Proc.change_same hc
  · exact .refl q

theorem Sound.pids (h : s.ledger.Sound) : (s.procs.map Proc.pid).Nodup := by
  have hn := h.nodup
  rwa [ledger, List.map_map] at hn

/-! ## Steps of the ledger -/

/-- What a step does to the ledger. -/
inductive Booked (s : State) (e : Event) : Ledger Pid → Prop
  | stay : Booked s e s.ledger
  | opened {jid : Nat} (h : s.ledger.account jid = none) : Booked s e (s.ledger.openAccount jid 0)
  | entered {jid : Nat} {job : Job} {pid : Pid} (he : e = .spawned pid)
      (hg : s.jid2job.get jid = some job) (hf : ∀ c ∈ s.ledger.children, c.pid ≠ pid) :
      Booked s e (s.ledger.enter jid job.account pid)
  | reaped {p : Proc} {jid : Nat} {job : Job} (hp : p ∈ s.procs)
      (hj : getJobFromPid s.jid2job p.pid = some jid) (hg : s.jid2job.get jid = some job) :
      Booked s e (s.ledger.book jid job.account p.pid)
  | lost {p : Proc} (hp : p ∈ s.procs) (hj : getJobFromPid s.jid2job p.pid = none) :
      Booked s e { s.ledger with children := s.ledger.drop p.pid }
  | failed {ctx : SpawnCtx} {fa : FileActions} {job : Job} {took : Option Pid}
      (he : e = .spawnFailed took) (hp : s.pc = .spawn ctx fa)
      (hg : s.jid2job.get ctx.jid = some job) : Booked s e (s.ledger.closeAccount ctx.jid)
  | deleted {jid : Nat} {job : Job} (hg : s.jid2job.get jid = some job)
      (ha : job.numProcessesAlive = 0) : Booked s e (s.ledger.closeAccount jid)

theorem Booked.of_eq {L L' : Ledger Pid} (h : L = L') (hb : Booked s e L') : Booked s e L :=
  h ▸ hb

theorem Booked.of_ledger {L : Ledger Pid} (h : L = s.ledger) : Booked s e L :=
  .of_eq h .stay

/-- A status leaves the children as they are, or takes one off that has terminated. -/
theorem waitpid_child {pid : Pid} {status : WaitStatus} {procs : List Proc}
    (hw : waitpid s.procs pid = some (status, procs)) : ∃ p ∈ s.procs, p.pid = pid ∧
      ((∃ sig, status = .stopped sig ∧ procs.map Proc.child = s.ledger.children) ∨
        ∃ st, status = .terminated st ∧ procs.map Proc.child = s.ledger.drop pid) := by
  obtain ⟨p, hmem, rfl, ⟨sig, rfl, -, hprocs⟩ | ⟨st, rfl, -, hprocs⟩⟩ := waitpid_cases hw
  · refine ⟨p, hmem, rfl, Or.inl ⟨sig, rfl, map_child hprocs fun q _ => ?_⟩⟩
    split
    · exact ⟨rfl, rfl, rfl⟩
    · exact .refl q
  · refine ⟨p, hmem, rfl, Or.inr ⟨st, rfl, ?_⟩⟩
    rw [hprocs, Ledger.drop, ledger, List.filter_map]
    rfl

/-- The status of a child is booked. -/
theorem booked_handled {t : State} {pid : Pid} {status : WaitStatus} {procs : List Proc} {jid : Nat}
    {job : Job} (hw : waitpid s.procs pid = some (status, procs))
    (hj : getJobFromPid s.jid2job pid = some jid) (hg : s.jid2job.get jid = some job)
    (ht : t.jid2job = s.jid2job.set jid (some (job.handled s.ttyAttr status)))
    (hp : t.procs = procs) (hn : t.nextSerial = s.nextSerial) : Booked s e t.ledger := by
  obtain ⟨p, hmem, rfl, ⟨sig, rfl, hchild⟩ | ⟨st, rfl, hchild⟩⟩ := waitpid_child hw
  · refine .of_ledger ?_
    have hacc : (fun i => ((s.jid2job.set jid (some (job.handled s.ttyAttr (.stopped sig)))).get
        i).map Job.account) = fun i => (s.jid2job.get i).map Job.account := by
      rw [account_set]
      funext i
      split
      · rename_i hi
        rw [hi, hg]
        rfl
      · rfl
    simp only [ledger, ht, hp, hn, hchild, hacc]
  · have hbook : t.ledger = s.ledger.book jid job.account p.pid := by
      simp only [ledger, ht, hp, hn, account_set, hchild]
      cases st <;> rfl
    exact .of_eq hbook (.reaped hmem hj hg)

theorem booked_lost {t : State} {pid : Pid} {status : WaitStatus} {procs : List Proc}
    (hw : waitpid s.procs pid = some (status, procs)) (hj : getJobFromPid s.jid2job pid = none)
    (ht : t.jid2job = s.jid2job) (hp : t.procs = procs) (hn : t.nextSerial = s.nextSerial) :
    Booked s e t.ledger := by
  obtain ⟨p, hmem, rfl, ⟨sig, rfl, hchild⟩ | ⟨st, rfl, hchild⟩⟩ := waitpid_child hw
  · refine .of_ledger ?_
    simp only [ledger, ht, hp, hn, hchild]
  · have hdrop : t.ledger = { s.ledger with children := s.ledger.drop p.pid } := by
      simp only [ledger, ht, hp, hn, hchild]
    exact .of_eq hdrop (.lost hmem hj)

theorem booked_killpg {t : State} {pgrp : Pid} {sig : Signal} (ht : t.jid2job = s.jid2job)
    (hp : t.procs = Cush.killpg s.procs pgrp sig) (hn : t.nextSerial = s.nextSerial) :
    Booked s e t.ledger := by
  refine .of_ledger ?_
  simp only [ledger, ht, hp, hn, killpg_child]

/-- A change of the status only. -/
theorem booked_status {t : State} {jid : Nat} {status : JobStatus}
    (ht : t.jid2job = s.jid2job.modify jid fun job => { job with status })
    (hp : t.procs = s.procs) (hn : t.nextSerial = s.nextSerial) : Booked s e t.ledger := by
  refine .of_ledger ?_
  have hacc := account_modify s.jid2job jid (f := fun job => { job with status }) fun _ => rfl
  simp only [ledger, ht, hp, hn, hacc]

theorem ledger_closed {t : State} {jid : Nat} (ht : t.jid2job = s.jid2job.set jid none)
    (hp : t.procs = s.procs) (hn : t.nextSerial = s.nextSerial) :
    t.ledger = s.ledger.closeAccount jid := by
  simp only [ledger, ht, hp, hn, account_set]
  rfl

/-- `handle_job` records a spawned process as the ledger enters it. -/
theorem ledger_spawnOk {ctx : SpawnCtx} {cmd : AstCommand} {rest : List AstCommand} {job : Job}
    {pid : Pid} (hg : s.jid2job.get ctx.jid = some job) (ha : Agrees ctx job) :
    (s.spawnOk ctx cmd rest job pid).ledger = s.ledger.enter ctx.jid job.account pid := by
  have hgroup : Ledger.groupFor job.account pid =
      if ctx.spawned.isEmpty then pid else job.pgid := by
    have hempty : job.pids.isEmpty = ctx.spawned.isEmpty := by
      rw [Bool.eq_iff_iff, List.isEmpty_iff, List.isEmpty_iff, ha.pids]
    simp only [Ledger.groupFor, Job.account, hempty]
  have hpgid : (if ctx.pgid = 0 then pid else ctx.pgid) = Ledger.groupFor job.account pid := by
    simp only [hgroup, ha.zero, List.isEmpty_iff, ha.pgid]
  have haccount : (fun i => ((s.spawnOk ctx cmd rest job pid).jid2job.get i).map Job.account) =
      s.ledger.put ctx.jid (some ⟨job.serial, job.pids ++ [pid], job.numProcessesAlive + 1,
        Ledger.groupFor job.account pid⟩) := by
    funext i
    rw [hgroup]
    simp only [spawnOk, SlotTable.get_modify, Ledger.put]
    split
    · rename_i hi
      rw [hi, hg]
      rfl
    · rfl
  have hchildren : (s.spawnOk ctx cmd rest job pid).procs.map Proc.child =
      s.ledger.children ++ [⟨pid, Ledger.groupFor job.account pid, job.serial⟩] := by
    rw [← hpgid]
    simp [spawnOk, ledger, Proc.child]
  simp only [ledger, haccount, hchildren]
  rfl

theorem freshPid_children {pid : Pid} (h : s.freshPid pid = true) :
    ∀ c ∈ s.ledger.children, c.pid ≠ pid := by
  intro c hc
  obtain ⟨p, hp, rfl⟩ := mem_children hc
  unfold freshPid at h
  simp only [Bool.and_eq_true, List.all_eq_true, decide_eq_true_eq] at h
  exact (h.1.2 p hp).1

/-- **A step of the shell is a step of the ledger.** -/
theorem Booked.move (hM : s.Masked) (hS : s.Spawning) (hn : (s.procs.map Proc.pid).Nodup)
    (hm : Move s e t) : Booked s e t.ledger := by
  cases hm with
  | child hc =>
    refine .of_ledger ?_
    simp only [ledger, changeProc_child hn hc]
  | handled out hwait hm hw hj hg => exact booked_handled hw hj hg rfl rfl rfl
  | lost hwait hw hj => exact booked_lost hw hj rfl rfl rfl
  | unblocked hwait hw hm =>
    rw [hM.sigchld hwait] at hm
    cases hm
  | killpg | fgCont | bgCont => exact booked_killpg rfl rfl rfl
  | fgStatus | bgStatus => exact booked_status rfl rfl rfl
  | @addJob node fds jid job hh hp hj hlt hjob =>
    have hfree : s.jid2job.get jid = none := hj ▸ (SlotTable.firstFree_spec s.jid2job 1).2.1
    refine .of_eq ?_ (.opened (congrArg (Option.map Job.account) hfree))
    simp only [ledger, account_set]
    subst hjob
    rfl
  | @spawned ctx fa cmd rest job pid hh hp ht hg hf he =>
    obtain ⟨job', hg', ha⟩ := hS ctx (by rw [hp]; rfl)
    rw [hg] at hg'
    cases hg'
    exact .of_eq (ledger_spawnOk hg ha) (.entered rfl hg (freshPid_children hf))
  | spawnFailed out tty hh hp ht hg =>
    exact .of_eq (ledger_closed rfl rfl rfl) (.failed rfl hp hg)
  | deadDelete out hh hp hg ha =>
    exact .of_eq (ledger_closed rfl rfl rfl) (.deleted hg ha)
  | _ => exact .stay

/-! ## Every run -/

theorem sound_booked {L : Ledger Pid} (h : s.ledger.Sound) (hb : Booked s e L) : L.Sound := by
  cases hb with
  | stay => exact h
  | opened => exact h.openAccount 0
  | entered he hg hf => exact h.enter (account_of_get hg) hf
  | reaped hp hj hg => exact h.book (account_of_get hg) _
  | lost hp hj => exact h.drop _
  | failed => exact h.closeAccount _
  | deleted => exact h.closeAccount _

theorem sound_init {s : State} (h : s.Initial) : s.ledger.Sound := by
  obtain ⟨shellPgrp, attr, openMax, -, rfl⟩ := h
  exact ⟨fun h => (nomatch h), fun h => (nomatch h), fun _ h => (nomatch h), .nil,
    fun _ h => (nomatch h)⟩

/-- The children of a job are recorded in it, however pids are reused. -/
theorem Run.sound {ok : State → Event → Bool} (hr : Run ok s) : s.ledger.Sound :=
  Lts.Reach.invariant (I := fun s => s.ledger.Sound) (fun _ => sound_init)
    (fun _ _ _ hr hI _ hs => sound_booked hI
      (.move (Run.masked hr) (Run.spawning hr) (Sound.pids hI) (step_move hs).2)) hr

/-- A step of a run books on the ledger. -/
theorem Run.booked {ok : State → Event → Bool} (hr : Run ok s) (hm : Move s e t) :
    Booked s e t.ledger :=
  .move hr.masked hr.spawning (Sound.pids hr.sound) hm

end State

end Cush
