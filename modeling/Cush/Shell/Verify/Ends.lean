import Cush.Grammar.Verify.Lines
import Cush.Shell.Verify.Lifetime
import Cush.Shell.Verify.Rest

/-!
# How the shell ends

Most of the assertions of the shell, and most of the pointers it follows without a check, are safe
in every run: a pipeline has a command and a command a word, the list of pipelines is not empty at
`list_next`, the job that a builtin or `handle_job` works on is in the table, and `SIGCHLD` is
blocked wherever `wait_for_job` and `handle_child_status` assert it. What is left are the ways the
shell ends, with what each of them takes.
-/

namespace Cush

namespace State

variable {s t : State} {e : Event} {ok : State → Event → Bool}

/-! ## The line -/

/-- The pipelines of the line have commands and words, and the one that `handle_builtin` works on is
the first of them. -/
structure Loaded (s : State) : Prop where
  pipes : ∀ node ∈ s.line, node.pipe.WellFormed
  inside : s.pc.inLine = true → s.pc ≠ .dispatch → s.line ≠ []

theorem Loaded.keep (h : s.Loaded) (hl : t.line = s.line)
    (hin : t.pc.inLine = true → t.pc ≠ .dispatch → s.line ≠ []) : t.Loaded :=
  ⟨hl ▸ h.pipes, fun hi hd => hl ▸ hin hi hd⟩

/-- The pipelines of a line that is read. -/
theorem newLine_wellFormed {sc sc' : Scanner} {expansion : List Char} {cline : AstCommandLine}
    (hr : astParseCommandLine sc expansion = (.ast cline, sc')) (next : Addr) :
    ∀ node ∈ (cline.pipes.zipIdx.map fun (pipe, i) => (⟨next + i, pipe⟩ : PipeNode)),
      node.pipe.WellFormed := by
  intro node hmem
  have hast : parseTokens (sc.tokens expansion) = .ast cline := by
    rw [← astParseCommandLine_fst, hr]
  obtain ⟨⟨pipe, i⟩, hp, rfl⟩ := List.mem_map.1 hmem
  exact parse_wellFormed hast pipe (List.fst_mem_of_mem_zipIdx hp)

theorem Loaded.move (h : s.Loaded) (hm : Move s e t) : t.Loaded := by
  cases hm with
  | child | sigchld | setAttr | others | handlerStart | handlerReturn | lineEmpty | handled =>
    exact h.keep rfl h.inside
  | lost | unblocked | eof | crash | abort | waitFatal | giveFatal | dispatchEnd =>
    exact h.keep rfl fun hi => nomatch hi
  | line hh hp hr hne hl =>
    refine ⟨?_, fun _ hd => absurd rfl hd⟩
    dsimp only
    rw [hl]
    exact newLine_wellFormed hr s.nextAddr
  | dispatch out hh hp hl ht =>
    refine h.keep rfl fun _ _ => ?_
    rw [hl]
    exact List.cons_ne_nil _ _
  | listNext hh hp hl =>
    refine ⟨fun node hmem => h.pipes node ?_, fun _ hd => absurd rfl hd⟩
    rw [hl]
    exact List.mem_cons_of_mem _ hmem
  | @deadEnd i exiting => cases exiting <;> exact h.keep rfl fun hi => nomatch hi
  | deadKeep | deadDelete => exact h.keep rfl fun hi => nomatch hi
  | _ =>
    refine h.keep rfl fun _ _ => h.inside ?_ ?_ <;> rw [‹s.pc = _›]
    · rfl
    · exact fun hd => nomatch hd

theorem Run.loaded (hr : Run ok s) : s.Loaded :=
  Lts.Reach.invariant (I := State.Loaded)
    (fun s h => by
      obtain ⟨shellPgrp, attr, openMax, -, rfl⟩ := h
      exact ⟨fun _ hmem => (nomatch hmem), fun hi => nomatch hi⟩)
    (fun _ _ _ _ hI _ hs => hI.move (step_move hs).2) hr

/-! ## The ends -/

/-- What it takes for a step to end the shell, and how it ends. That `malloc`, `tcgetattr` or
`tcsetattr` fails, that `tcsetpgrp` fails for a group that exists, or that a signal kills the shell,
is not part of the steps. -/
inductive EndsIn (s : State) : Event → Pc → Prop
  | eof : EndsIn s .eof .exited
  /-- `build_prompt` follows the null pointer that `getpwuid` returns -/
  | noUser : EndsIn s .noUser .crashed
  | exit {i : Nat} (hp : s.pc = .deleteDeadJobs i true) (hn : s.jid2job.next i = none) :
      EndsIn s .main .exited
  /-- the assertion of `list_back`, called by the parser -/
  | ampersand {expansion : List Char}
      (hb : BackgroundsNothingFirst (s.scanner.tokens expansion)) :
      EndsIn s (.line expansion) .aborted
  /-- `add_job` finds no free entry -/
  | tableFull {node : PipeNode} {fds : Option (List Fd)} (hp : s.pc = .addJob node fds)
      (hf : MAXJOBS ≤ s.jid2job.firstFree 1) : EndsIn s .main .aborted
  /-- `bg` names no job -/
  | bg {node : PipeNode} {rest : List PipeNode} (hp : s.pc = .dispatch) (hl : s.line = node :: rest)
      (hb : node.pipe.builtin = some .bg) (hn : namedJob s.jid2job node.pipe = none) :
      EndsIn s .main .crashed
  /-- the `tcsetpgrp` of `fg` fails -/
  | fg {jid : Nat} {pgrp : Pid} (hp : s.pc = .give .setPgrp (.job jid pgrp))
      (hg : s.groupExists pgrp = false) : EndsIn s .main (.fatal .tcsetpgrp)
  /-- the `waitpid` of `wait_for_job` fails -/
  | noChild {jid : Nat} {job : Job} (hp : s.pc = .waitForJob jid)
      (hg : s.jid2job.get jid = some job) (hk : keepsWaiting job = true) (hn : s.procs = []) :
      EndsIn s .main (.fatal .waitpid)
  /-- `handle_child_status` finds no job -/
  | orphan {e : Event} {pid : Pid} (he : e = .reap pid ∨ e = .waitpid pid)
      (hj : getJobFromPid s.jid2job pid = none) : EndsIn s e .crashed

/-- A step goes on, or is one of those that end the shell. -/
def GoesOn (s : State) (e : Event) (t : State) : Prop :=
  t.pc.live = true ∨ s.EndsIn e t.pc

theorem withJob_live {name : Word} {args : List Word} {k : Nat → Job → State}
    (hk : ∀ jid job, (k jid job).pc.live = true) : (s.withJob name args k).pc.live = true := by
  unfold withJob
  split
  · rfl
  · dsimp only
    split
    · rfl
    · exact hk _ _

/-- Where `bg` goes. -/
theorem dispatch_bg {node : PipeNode} {rest : List PipeNode} (hl : s.line = node :: rest)
    (hb : node.pipe.builtin = some .bg) :
    s.dispatch.pc = (namedJob s.jid2job node.pipe).elim .crashed .bgStatus := by
  unfold AstPipeline.builtin at hb
  split at hb
  · rename_i name args dup cmds hc
    rw [dispatch_command hl hc rfl]
    unfold handleBuiltin namedJob
    rw [hb, hc]
    cases args with
    | nil => rfl
    | cons arg args =>
      dsimp only [builtinBg, readNode]
      rw [hb, Option.any_some]
      cases getJobFromJid s.jid2job (atoi arg) <;> rfl
  · cases hb

theorem GoesOn.dispatch (h : s.Loaded) (hp : s.pc = .dispatch) : s.GoesOn .main s.dispatch := by
  cases hl : s.line with
  | nil =>
    refine Or.inl ?_
    unfold State.dispatch
    rw [hl]
    rfl
  | cons node rest =>
    obtain ⟨hne, hwords⟩ := h.pipes node (hl ▸ List.mem_cons_self)
    obtain ⟨cmd, cmds, hc⟩ := List.exists_cons_of_ne_nil hne
    obtain ⟨name, args, ha⟩ :=
      List.exists_cons_of_ne_nil (hwords cmd (hc ▸ List.mem_cons_self))
    by_cases hbg : node.pipe.builtin = some .bg
    · unfold GoesOn
      rw [dispatch_bg hl hbg]
      cases hn : namedJob s.jid2job node.pipe with
      | none => exact Or.inr (.bg hp hl hbg hn)
      | some jid => exact Or.inl rfl
    · refine Or.inl ?_
      rw [dispatch_command hl hc ha]
      unfold handleBuiltin
      cases hb : Builtin.ofName name with
      | none => rfl
      | some b =>
        cases b with
        | jobs | history | exit => rfl
        | kill | stop | fg => exact withJob_live fun _ _ => rfl
        | bg => exact absurd (builtin_eq hc ha hb) hbg

/-- `wait_for_job` is called with `SIGCHLD` blocked, and the job whose number is printed is there.
-/
theorem closeFds_live {node : PipeNode} {jid : Nat} {fds : Option (List Fd)} {fail : Bool}
    (hM : s.Masked) (hP : s.Present) (hh : s.handler = none)
    (hp : s.pc = .closeFds node jid fds fail) : (s.closeFds node jid fds fail).pc.live = true := by
  have hm : s.mask.sigchld = true := by
    rw [hM.main hh (by rw [hp]; rfl), hp]
    rfl
  unfold State.closeFds
  dsimp only
  cases fail with
  | true => simp [readNode, Pc.live]
  | false =>
    obtain ⟨job, hg⟩ := hP jid (by rw [hp]; rfl)
    cases hb : node.pipe.bgJob with
    | true => simp [readNode, forJob, hg, State.print, Pc.live]
    | false => simp [readNode, enterWaitForJob, hm, Pc.live]

theorem GoesOn.waitForJob {jid : Nat} (hP : s.Present) (hp : s.pc = .waitForJob jid)
    (hs : s.mainStep = some t) : s.GoesOn .main t := by
  obtain ⟨job, hg⟩ := hP jid (by rw [hp]; rfl)
  simp only [mainStep, hp, hg] at hs
  cases hk : keepsWaiting job with
  | true =>
    by_cases hn : s.procs = []
    · rw [hk, if_pos rfl, if_pos hn] at hs
      cases hs
      exact Or.inr (.noChild hp hg hk hn)
    · rw [hk, if_pos rfl, if_neg hn] at hs
      cases hs
  | false =>
    rw [hk] at hs
    cases hs
    exact Or.inl rfl

theorem GoesOn.deleteDeadJobs {i : Nat} {exiting : Bool} (hp : s.pc = .deleteDeadJobs i exiting) :
    s.GoesOn .main (s.deleteDeadJobs i exiting) := by
  cases hn : s.jid2job.next i with
  | none =>
    unfold State.deleteDeadJobs
    rw [hn]
    cases exiting with
    | true => exact Or.inr (.exit hp hn)
    | false => exact Or.inl rfl
  | some k =>
    obtain ⟨-, job, hg⟩ := SlotTable.next_some hn
    refine Or.inl ?_
    unfold State.deleteDeadJobs
    simp only [hn, hg]
    split
    · split <;> simp [deleteJob, forJob, State.print, hg, Pc.live]
    · rfl

theorem GoesOn.give {stage : GiveStage} {target : GiveTarget} (hp : s.pc = .give stage target) :
    s.GoesOn .main (s.give stage target) := by
  cases stage with
  | block | restore => exact Or.inl rfl
  | unblock => cases target <;> exact Or.inl rfl
  | setPgrp =>
    cases target with
    | shell => exact Or.inl rfl
    | job jid pgrp =>
      unfold GoesOn State.give
      dsimp only
      cases hg : s.groupExists pgrp with
      | true => exact Or.inl rfl
      | false => exact Or.inr (.fg hp hg)

theorem GoesOn.main (hr : Run ok s) (hs : step s .main = some t) : s.GoesOn .main t := by
  obtain ⟨hl, hh, ha⟩ := step_main hs
  have hP := hr.present
  cases hp : s.pc with
  | readline | spawn => simp [answerStep, hp, mainStep] at ha
  | exited | fatal | crashed | aborted =>
    rw [hp] at hl
    cases hl
  | dispatch =>
    obtain rfl : s.dispatch = t := by simpa [answerStep, hp, mainStep] using ha
    exact .dispatch hr.loaded hp
  | listNext =>
    obtain rfl : s.listNext = t := by simpa [answerStep, hp, mainStep] using ha
    obtain ⟨node, rest, hline⟩ := List.exists_cons_of_ne_nil
      (hr.loaded.inside (by rw [hp]; rfl) (by simp [hp]))
    refine Or.inl ?_
    unfold State.listNext
    rw [hline]
    rfl
  | jobs i =>
    obtain rfl : s.jobsNext i = t := by simpa [answerStep, hp, mainStep] using ha
    refine Or.inl ?_
    unfold jobsNext
    split <;> rfl
  | killpg jid sig | fgCont jid | bgCont jid =>
    obtain ⟨job, hg⟩ := hP jid (by rw [hp]; rfl)
    simp only [answerStep, hp, mainStep, forJob, hg, Option.some.injEq] at ha
    exact Or.inl (ha ▸ rfl)
  | fgStatus jid | bgStatus jid | blockSigchld node fds | unblockSigchld =>
    simp only [answerStep, hp, mainStep, Option.some.injEq] at ha
    exact Or.inl (ha ▸ rfl)
  | fgBlock jid =>
    simp only [answerStep, hp, mainStep, enterWaitForJob, maskSigchld, if_true,
      Option.some.injEq] at ha
    exact Or.inl (ha ▸ rfl)
  | handleJob node =>
    simp only [answerStep, hp, mainStep] at ha
    split at ha
    · cases ha
    · cases ha
      exact Or.inl rfl
  | createPipes node fds i =>
    simp only [answerStep, hp] at ha
    split at ha
    · cases ha
    · cases ha
      exact Or.inl rfl
  | addJob node fds =>
    obtain rfl : s.addJob node fds = t := by simpa [answerStep, hp, mainStep] using ha
    unfold GoesOn State.addJob
    dsimp only
    split
    · exact Or.inl rfl
    · rename_i hfull
      exact Or.inr (.tableFull hp (Nat.le_of_not_lt hfull))
  | setUp ctx =>
    simp only [answerStep, hp, mainStep] at ha
    split at ha
    · cases ha
      exact Or.inl rfl
    · cases ha
  | closeFds node jid fds fail =>
    obtain rfl : s.closeFds node jid fds fail = t := by simpa [answerStep, hp, mainStep] using ha
    exact Or.inl (closeFds_live hr.masked hP hh hp)
  | waitForJob jid =>
    simp only [answerStep, hp] at ha
    exact .waitForJob hP hp ha
  | give stage target =>
    obtain rfl : s.give stage target = t := by simpa [answerStep, hp, mainStep] using ha
    exact .give hp
  | deleteDeadJobs i exiting =>
    obtain rfl : s.deleteDeadJobs i exiting = t := by simpa [answerStep, hp, mainStep] using ha
    exact .deleteDeadJobs hp

/-- Steps of the main program that depend on an answer. -/
theorem step_answer (he : e.ofMain = true) (hs : step s e = some t) :
    s.answerStep e = some t := by
  unfold step at hs
  cases e with
  | line | noUser | main | spawned | spawnFailed =>
    split at hs
    · dsimp only at hs
      split at hs
      · exact hs
      · cases hs
    · cases hs
  | _ => cases he

theorem step_noUser (hs : step s .noUser = some t) : t = s.crash := by
  have ha := step_answer rfl hs
  simp only [answerStep] at ha
  split at ha
  · exact (Option.some.inj ha).symm
  · cases ha

theorem GoesOn.noUser (hs : step s .noUser = some t) : s.GoesOn .noUser t := by
  rw [step_noUser hs]
  exact Or.inr .noUser

theorem GoesOn.line {expansion : List Char} (hs : step s (.line expansion) = some t) :
    s.GoesOn (.line expansion) t := by
  have ha := step_answer rfl hs
  simp only [answerStep] at ha
  split at ha
  · rename_i hp
    cases ha
    have hfst := astParseCommandLine_fst s.scanner expansion
    unfold readLine
    cases hr : astParseCommandLine s.scanner expansion with
    | mk r sc =>
      rw [hr] at hfst
      obtain rfl : r = parseTokens (s.scanner.tokens expansion) := hfst
      rcases parseTokens_outcome (s.scanner.tokens expansion) with
        ⟨hb, ho⟩ | ⟨-, ⟨cl, ho⟩ | ⟨msg, ho⟩⟩
      · rw [ho]
        exact Or.inr (.ampersand hb)
      · rw [ho]
        refine Or.inl ?_
        dsimp only
        split
        · rw [hp]
          rfl
        · rfl
      · rw [ho]
        refine Or.inl ?_
        cases msg <;> exact hp ▸ rfl
  · cases ha

/-- `handle_job` keeps the job it spawns in the table. -/
theorem spawn_live (hP : s.Present) (he : (∃ pid, e = .spawned pid) ∨ ∃ took, e = .spawnFailed took)
    (hs : step s e = some t) : t.pc.live = true := by
  rcases he with ⟨pid, rfl⟩ | ⟨took, rfl⟩
  · have ha := step_answer rfl hs
    simp only [answerStep] at ha
    split at ha
    · rename_i ctx fa hp
      obtain ⟨job, hg⟩ := hP ctx.jid (by rw [hp]; rfl)
      split at ha
      · split at ha
        · simp only [forJob, hg, Option.some.injEq] at ha
          exact ha ▸ rfl
        · cases ha
      · cases ha
    · cases ha
  · have ha := step_answer rfl hs
    simp only [answerStep] at ha
    split at ha
    · rename_i ctx fa hp
      obtain ⟨job, hg⟩ := hP ctx.jid (by rw [hp]; rfl)
      split at ha
      · simp only [spawnFail, deleteJob, forJob, readNode, State.print, hg, Option.some.injEq] at ha
        exact ha ▸ rfl
      · cases ha
    · cases ha

theorem GoesOn.step (hr : Run ok s) (hs : Cush.step s e = some t) : s.GoesOn e t := by
  obtain ⟨hl, hm⟩ := step_move hs
  cases hm with
  | child | sigchld | setAttr | others | handlerStart | handlerReturn | lineEmpty | handled =>
    exact Or.inl hl
  | eof => exact Or.inr .eof
  | lost hwait hw hj => exact Or.inr (.orphan (hwait.event) hj)
  | unblocked hwait hw hm =>
    rw [hr.masked.sigchld hwait] at hm
    cases hm
  | crash hh o ds out tty hrf he | abort hh sc hist m o hrf he =>
    cases e with
    | main => exact .main hr hs
    | line => exact .line hs
    | noUser => exact .noUser hs
    | spawned pid => exact Or.inl (spawn_live hr.present (Or.inl ⟨pid, rfl⟩) hs)
    | spawnFailed took => exact Or.inl (spawn_live hr.present (Or.inr ⟨took, rfl⟩) hs)
    | _ => cases he
  | line | malloc | pipe2 | setUp | spawned | spawnFailed => exact Or.inl rfl
  | _ => exact .main hr hs

theorem EndsIn.pc {pc : Pc} (h : s.EndsIn e pc) (hM : s.Masked) (hs : step s e = some t) :
    t.pc = pc := by
  cases h with
  | eof =>
    cases (step_move hs).2 with
    | eof => rfl
    | crash hh o ds out tty hrf he | abort hh sc hist m o hrf he => cases he
    | handled out hwait | lost hwait | unblocked hwait => cases hwait
  | noUser =>
    rw [step_noUser hs]
    rfl
  | exit hp hn =>
    rw [step_deleteDeadJobs hp hs]
    unfold deleteDeadJobs
    rw [hn]
    rfl
  | @ampersand expansion hb =>
    have ha := step_answer rfl hs
    simp only [answerStep] at ha
    split at ha
    · cases ha
      have hfst := astParseCommandLine_fst s.scanner expansion
      rcases parseTokens_outcome (s.scanner.tokens expansion) with ⟨-, ho⟩ | ⟨hnb, -⟩
      · rw [ho] at hfst
        unfold readLine
        cases hr : astParseCommandLine s.scanner expansion with
        | mk r sc =>
          rw [hr] at hfst
          obtain rfl : r = .abort .listBack := hfst
          rfl
      · exact absurd hb hnb
    · cases ha
  | tableFull hp hf =>
    have ha := step_answer rfl hs
    simp only [answerStep, hp, mainStep, Option.some.injEq] at ha
    rw [← ha, addJob, if_neg (Nat.not_lt.2 hf)]
    rfl
  | bg hp hl hb hn =>
    rw [step_dispatch hp hs, dispatch_bg hl hb, hn]
    rfl
  | fg hp hg =>
    have ha := step_answer rfl hs
    simp only [answerStep, hp, mainStep, give, hg, Bool.false_eq_true, if_false,
      Option.some.injEq] at ha
    exact ha ▸ rfl
  | noChild hp hg hk hn =>
    have ha := step_answer rfl hs
    simp only [answerStep, hp, mainStep, hg, hk, hn, if_true, Option.some.injEq] at ha
    exact ha ▸ rfl
  | orphan he hj =>
    have hwait := waiting_of_step hs he
    cases (step_move hs).2 with
    | lost => rfl
    | handled out hwait' hm hw hj' =>
      cases hwait.unique hwait'
      cases hj.symm.trans hj'
    | unblocked hwait' hw hm =>
      rw [hM.sigchld hwait] at hm
      cases hm
    | crash hh o ds out tty hrf hmain | abort hh sc hist m o hrf hmain =>
      rcases he with rfl | rfl <;> cases hmain
    | _ => rcases he with he | he <;> cases he

/-- **The ways the shell ends**: in every run, a step ends it in a certain way if and only if it is
one of those that `EndsIn` lists. In particular no other assertion fails, and no other null pointer
is followed, as long as `malloc`, `tcgetattr` and `tcsetattr` succeed. -/
theorem ends_run (hr : Run ok s) (hs : step s e = some t) {pc : Pc} (hd : pc.live = false) :
    t.pc = pc ↔ s.EndsIn e pc := by
  refine ⟨?_, fun h => h.pc hr.masked hs⟩
  rintro rfl
  refine (GoesOn.step hr hs).resolve_left fun hl => ?_
  rw [hd] at hl
  cases hl

/-- `bg` without a job follows a null pointer. -/
theorem ends_run_bg : ∃ s t, Lts.exec step (fun _ _ => true) (State.init 50 7 .usual)
    [.line ['b', 'g']] = some s ∧ step s .main = some t ∧ t.pc = .crashed := by
  have hrun : ((Lts.exec step (fun _ _ => true) (State.init 50 7 .usual)
      [.line ['b', 'g']]).bind fun s => (step s .main).map fun _ => (s.pc, s.line.map fun node =>
        (node.pipe.builtin, namedJob s.jid2job node.pipe))) =
      some (.dispatch, [(some .bg, none)]) := by
    decide
  obtain ⟨s, hs, hstep⟩ := Option.bind_eq_some_iff.1 hrun
  obtain ⟨t, ht, he⟩ := Option.map_eq_some_iff.1 hstep
  obtain ⟨hp, hline⟩ := Prod.ext_iff.1 he
  obtain ⟨node, rest, hl, hnode, -⟩ := List.map_eq_cons_iff.1 hline
  obtain ⟨hb, hn⟩ := Prod.ext_iff.1 hnode
  exact ⟨s, t, hs, ht, (ends_run (Run.exec (by decide) hs) ht rfl).2 (.bg hp hl hb hn)⟩

end State

end Cush
