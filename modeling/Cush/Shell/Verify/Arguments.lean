import Cush.Shell.Verify.Foreground
import Cush.Shell.Verify.Groups
import Cush.Shell.Verify.Table

/-!
# The arguments of builtins

`kill`, `stop`, `fg` and `bg` name a job by a number, which `atoi` makes of their first argument.
`atoi` skips blanks, takes a sign, stops at the first character that is no digit, and keeps 32 bits.
So a numeral that names a job is taken for that job, but other texts are taken for a job as well.
`bg` does not check its argument.
-/

namespace Cush

/-! ## Numerals -/

/-- A decimal numeral. -/
structure IsNumeral (arg : Word) : Prop where
  ne_nil : arg ≠ []
  digits : ∀ c ∈ arg, c.isDigit = true

theorem isDigit_not_space {c : Char} (h : c.isDigit = true) : isSpace c = false := by
  simp only [Char.isDigit, Bool.and_eq_true, decide_eq_true_eq] at h
  have h1 : 48 ≤ c.toNat := h.1
  have hne : c ≠ ' ' := by
    rintro rfl
    exact absurd h1 (by decide)
  simp only [isSpace, Bool.or_eq_false_iff, beq_eq_false_iff_ne, Bool.and_eq_false_iff,
    decide_eq_false_iff_not]
  exact ⟨hne, Or.inr (by omega)⟩

/-- `strtol` reads a numeral as its value, up to the largest `long`. -/
theorem strtol_numeral {arg : Word} (h : IsNumeral arg) :
    strtol arg = if LONG_MAX < (digitsValue 0 arg : Int) then LONG_MAX else digitsValue 0 arg := by
  obtain ⟨c, arg, rfl⟩ := List.exists_cons_of_ne_nil h.ne_nil
  have hc := h.digits c List.mem_cons_self
  have hdrop : (c :: arg).dropWhile isSpace = c :: arg := by
    rw [List.dropWhile_cons, if_neg]
    simp [isDigit_not_space hc]
  have hminus : c ≠ '-' := by rintro rfl; cases hc
  have hplus : c ≠ '+' := by rintro rfl; cases hc
  unfold strtol
  rw [hdrop]
  split
  · rename_i he
    cases he
    exact absurd rfl hminus
  · rename_i he
    cases he
    exact absurd rfl hplus
  · have hlow : ¬ ((digitsValue 0 (c :: arg) : Nat) : Int) < LONG_MIN := by
      simp only [LONG_MIN, LONG_MAX]
      omega
    simp only [if_neg hlow]

/-- A numeral whose value is an `int` has that value. -/
theorem atoi_numeral {arg : Word} (h : IsNumeral arg) (hlt : digitsValue 0 arg < 0x80000000) :
    atoi arg = digitsValue 0 arg := by
  have hmax : ¬ LONG_MAX < (digitsValue 0 arg : Int) := by
    simp only [LONG_MAX]
    omega
  rw [atoi, strtol_numeral h, if_neg hmax]
  simp only [INT_MIN]
  omega

/-! ## The call of a builtin -/

/-- Where a builtin that works on a job goes on once it has found the job. -/
def Builtin.start : Builtin → Nat → Pc
  | .kill, jid => .killpg jid .sigterm
  | .stop, jid => .killpg jid .sigtstp
  | .fg, jid => .fgStatus jid
  | _, jid => .bgStatus jid

/-- The jid of the job that is looked up for an argument vector, if there is such a job. -/
def lookedUp (jid2job : SlotTable Job) : List Word → Option Nat
  | [] => none
  | arg :: _ => (getJobFromJid jid2job (atoi arg)).map fun _ => (atoi arg).toNat

/-- Where a builtin that works on a job goes on. -/
def Builtin.answer (b : Builtin) : Option Nat → Pc
  | some jid => b.start jid
  | none => if b = .bg then .crashed else .listNext

/-- The job that a builtin acts on at its next step. -/
def Pc.acting : Pc → Option Nat
  | .killpg jid _ | .fgStatus jid | .fgCont jid | .fgBlock jid | .bgStatus jid | .bgCont jid =>
    some jid
  | .give _ (.job jid _) => some jid
  | _ => none

/-- The points to which a step of a builtin that acts on a job can lead. -/
def Pc.afterActing (jid : Nat) (pc : Pc) : Prop :=
  pc.acting = some jid ∨ pc = .listNext ∨ pc = .waitForJob jid ∨ pc = .fatal .tcsetpgrp

namespace State

variable {s t : State} {e : Event} {ok : State → Event → Bool}

/-- The main program is going to call a builtin with some arguments. -/
structure Calls (s : State) (b : Builtin) (args : List Word) : Prop where
  pc : s.pc = .dispatch
  handler : s.handler = none
  line : ∃ node rest cmd cmds name, s.line = node :: rest ∧ node.pipe.commands = cmd :: cmds ∧
    cmd.argv = name :: args ∧ Builtin.ofName name = some b

/-- The job table, the processes and the owner of the terminal are as they were, and no signal has
been sent. -/
structure Untouched (s t : State) : Prop where
  table : t.jid2job = s.jid2job
  procs : t.procs = s.procs
  killed : t.killed = s.killed
  terminal : t.ttyPgrp = s.ttyPgrp

theorem withJob_untouched (s : State) (name : Word) (args : List Word) {k : Nat → Job → State}
    {b : Builtin} (hb : b ≠ .bg) (hk : ∀ jid job, Untouched s (k jid job))
    (hpc : ∀ jid job, (k jid job).pc = b.start jid) :
    Untouched s (s.withJob name args k) ∧
      (s.withJob name args k).pc = b.answer (lookedUp s.jid2job args) := by
  have failed : ∀ o, Untouched s { s.print o with pc := .listNext } ∧
      ({ s.print o with pc := .listNext } : State).pc = b.answer none :=
    fun o => ⟨⟨rfl, rfl, rfl, rfl⟩, (if_neg hb).symm⟩
  cases args with
  | nil => exact failed _
  | cons arg args =>
    simp only [withJob, lookedUp]
    cases getJobFromJid s.jid2job (atoi arg) with
    | none => exact failed _
    | some job => exact ⟨hk _ _, hpc _ _⟩

/-- The call of a builtin that works on a job changes nothing yet. -/
theorem handleBuiltin_untouched (s : State) (node : PipeNode) {name : Word} (args : List Word)
    {b : Builtin} (hb : Builtin.ofName name = some b) (hn : b.namesJob = true) :
    Untouched s (s.handleBuiltin node name args) ∧
      (s.handleBuiltin node name args).pc = b.answer (lookedUp s.jid2job args) := by
  unfold handleBuiltin
  rw [hb]
  cases b with
  | kill =>
    exact withJob_untouched s name args (by decide) (fun _ _ => ⟨rfl, rfl, rfl, rfl⟩)
      fun _ _ => rfl
  | stop =>
    exact withJob_untouched s name args (by decide) (fun _ _ => ⟨rfl, rfl, rfl, rfl⟩)
      fun _ _ => rfl
  | fg =>
    exact withJob_untouched s name args (by decide) (fun _ _ => ⟨rfl, rfl, rfl, rfl⟩)
      fun _ _ => rfl
  | bg =>
    cases args with
    | nil => exact ⟨⟨rfl, rfl, rfl, rfl⟩, rfl⟩
    | cons arg args =>
      simp only [builtinBg, lookedUp]
      cases getJobFromJid s.jid2job (atoi arg) with
      | none => exact ⟨⟨rfl, rfl, rfl, rfl⟩, rfl⟩
      | some job => exact ⟨⟨rfl, rfl, rfl, rfl⟩, rfl⟩
  | _ => cases hn

theorem Calls.step {b : Builtin} {args : List Word} (h : s.Calls b args) (hn : b.namesJob = true) :
    ∃ t, Cush.step s .main = some t ∧ Untouched s t ∧
      t.pc = b.answer (lookedUp s.jid2job args) := by
  obtain ⟨hpc, hh, node, rest, cmd, cmds, name, hl, hc, ha, hb⟩ := h
  have hstep : Cush.step s .main = some s.dispatch := by
    unfold Cush.step answerStep mainStep
    rw [hpc, hh]
    rfl
  refine ⟨_, hstep, ?_⟩
  rw [dispatch_command hl hc ha]
  obtain ⟨hu, hp⟩ := handleBuiltin_untouched
    { s.readNode node.addr with dispatched := s.dispatched ++ [node.addr] } node args hb hn
  exact ⟨⟨hu.table, hu.procs, hu.killed, hu.terminal⟩, hp⟩

/-! ## The job that is named -/

/-- The first argument is a decimal numeral for the jid of a job in the table. -/
def NumeralNames (jid2job : SlotTable Job) (args : List Word) (jid : Nat) : Prop :=
  ∃ arg rest, args = arg :: rest ∧ IsNumeral arg ∧ digitsValue 0 arg = jid ∧
    ∃ i job, jid2job.get i = some job ∧ job.jid = jid

/-- No job has the jid that `atoi` makes of the first argument. -/
def AtoiNamesNone (jid2job : SlotTable Job) (args : List Word) : Prop :=
  ∀ arg rest, args = arg :: rest → ∀ i job, jid2job.get i = some job → (job.jid : Int) ≠ atoi arg

theorem lookedUp_numeral (hL : s.Listed) {args : List Word} {jid : Nat}
    (h : NumeralNames s.jid2job args jid) : lookedUp s.jid2job args = some jid := by
  obtain ⟨arg, rest, rfl, hnum, hval, i, job, hg, hj⟩ := h
  obtain ⟨hji, hle, hlt⟩ := hL.slot hg
  have hatoi : atoi arg = (jid : Int) := by
    rw [atoi_numeral hnum (by rw [MAXJOBS] at hlt; omega), hval]
  have hfind : getJobFromJid s.jid2job (jid : Int) = some job := by
    unfold Cush.getJobFromJid
    rw [if_pos (by omega), Int.toNat_natCast, ← hj, hji]
    exact hg
  simp only [lookedUp, hatoi, hfind, Option.map_some, Int.toNat_natCast]

theorem lookedUp_none_iff (hL : s.Listed) (args : List Word) :
    lookedUp s.jid2job args = none ↔ AtoiNamesNone s.jid2job args := by
  cases args with
  | nil => exact iff_of_true rfl fun _ _ he => nomatch he
  | cons arg rest =>
    rw [lookedUp, Option.map_eq_none_iff]
    constructor
    · rintro hnone _ _ ⟨⟩ i job hg hj
      obtain ⟨hji, hle, hlt⟩ := hL.slot hg
      unfold Cush.getJobFromJid at hnone
      rw [if_pos (by omega), ← hj, Int.toNat_natCast, hji, hg] at hnone
      cases hnone
    · intro h
      cases hf : getJobFromJid s.jid2job (atoi arg) with
      | none => rfl
      | some job =>
        obtain ⟨⟨i, hg⟩, hj, -⟩ := (hL.getJobFromJid _ _).1 hf
        exact absurd hj (h arg rest rfl i job hg)

/-- What the call of a builtin should lead to: it goes on with the job that its argument is the
numeral of, or, where there is none, with the rest of the line. -/
structure Heeds (s : State) (b : Builtin) (args : List Word) (t : State) : Prop where
  named : ∀ jid, NumeralNames s.jid2job args jid → t.pc = b.start jid
  unnamed : (∀ jid, ¬ NumeralNames s.jid2job args jid) → t.pc = .listNext
  untouched : Untouched s t

theorem start_ne_listNext {b : Builtin} {jid : Nat} : b.start jid ≠ .listNext := by
  cases b <;> exact fun h => nomatch h

theorem heeds_iff (hL : s.Listed) {b : Builtin} {args : List Word} (hu : Untouched s t)
    (hp : t.pc = b.answer (lookedUp s.jid2job args)) :
    s.Heeds b args t ↔ (∃ jid, NumeralNames s.jid2job args jid) ∨
      (b ≠ .bg ∧ AtoiNamesNone s.jid2job args) := by
  by_cases hnum : ∃ jid, NumeralNames s.jid2job args jid
  · refine iff_of_true ⟨fun jid h => ?_, fun h => ?_, hu⟩ (Or.inl hnum)
    · rw [hp, lookedUp_numeral hL h]
      rfl
    · obtain ⟨jid, hj⟩ := hnum
      exact absurd hj (h jid)
  · rw [← lookedUp_none_iff hL]
    constructor
    · intro h
      have hlist := h.unnamed fun jid hj => hnum ⟨jid, hj⟩
      right
      rw [hp] at hlist
      cases hf : lookedUp s.jid2job args with
      | none =>
        refine ⟨fun hb => ?_, rfl⟩
        rw [hf, hb] at hlist
        cases hlist
      | some jid =>
        rw [hf] at hlist
        exact absurd hlist start_ne_listNext
    · rintro (h | ⟨hb, hnone⟩)
      · exact absurd h hnum
      · refine ⟨fun jid h => absurd ⟨jid, h⟩ hnum, fun _ => ?_, hu⟩
        rw [hp, hnone]
        exact if_neg hb

/-! ## The job that is acted on -/

/-- The group `fg` gives the terminal to is that of its job. -/
def Named (s : State) : Prop :=
  ∀ stage jid pgrp job, s.pc = .give stage (.job jid pgrp) → s.jid2job.get jid = some job →
    job.pgid = pgrp

theorem Named.of_none (h : ∀ stage jid pgrp, t.pc ≠ .give stage (.job jid pgrp)) : t.Named :=
  fun stage jid pgrp _ hp => absurd hp (h stage jid pgrp)

theorem Named.move (h : s.Named) (hm : Move s e t) : t.Named := by
  cases hm with
  | child | sigchld | setAttr | others | handlerStart | handlerReturn | lineEmpty => exact h
  | handled out hwait hm hw hj hg =>
    intro stage jid pgrp job hp hget
    rcases SlotTable.get_set_eq_some.1 hget with ⟨rfl, hnew⟩ | ⟨-, hold⟩
    · cases hnew
      rw [Job.handled_pgid]
      exact h stage _ pgrp _ hp hg
    · exact h stage jid pgrp job hp hold
  | dispatch out hh hp hl ht =>
    exact .of_none fun _ _ _ h => by cases ht <;> cases h
  | @deadEnd i exiting => cases exiting <;> exact .of_none fun _ _ _ h => nomatch h
  | fgCont hh hp hg =>
    intro stage jid pgrp job hpc hget
    cases hpc
    cases hg.symm.trans hget
    rfl
  | @giveBlock target hh hp | @giveRestore target hh hp =>
    intro stage jid pgrp job hpc hget
    cases hpc
    exact h _ _ _ job hp hget
  | giveJob hh hp =>
    intro stage jid pgrp job hpc hget
    cases hpc
    exact h _ _ _ job hp hget
  | _ => exact .of_none fun _ _ _ h => nomatch h

theorem Run.named (hr : Run ok s) : s.Named := by
  refine Lts.Reach.invariant (I := State.Named) ?_
    (fun _ _ _ _ hI _ hs => hI.move (step_move hs).2) hr
  rintro s ⟨shellPgrp, attr, openMax, -, rfl⟩
  exact .of_none fun _ _ _ h => nomatch h

/-- The step of a builtin that concerns one job: no other job is written to, no other group is sent
a signal or given the terminal. -/
structure ActsOn (s t : State) (jid : Nat) (job : Job) : Prop where
  others : ∀ i, i ≠ jid → t.jid2job.get i = s.jid2job.get i
  signals : (t.killed = s.killed ∧ t.procs = s.procs) ∨
    ∃ sig, t.killed = s.killed ++ [(job.pgid, sig)] ∧
      t.procs = Cush.killpg s.procs job.pgid sig
  terminal : t.ttyPgrp = s.ttyPgrp ∨ t.ttyPgrp = job.pgid

theorem worksOn_of_acting {pc : Pc} {jid : Nat} (h : pc.acting = some jid) :
    pc.worksOn = some jid := by
  cases pc with
  | give stage target => cases target <;> exact h
  | killpg | fgStatus | fgCont | fgBlock | bgStatus | bgCont => exact h
  | _ => cases h

/-- A builtin acts on the job that it has found, and on no other. -/
theorem acting_main (hr : Run ok s) {jid : Nat} (ha : s.pc.acting = some jid)
    (hs : step s .main = some t) :
    ∃ job, s.jid2job.get jid = some job ∧ ActsOn s t jid job ∧ t.pc.afterActing jid := by
  obtain ⟨job, hg⟩ := hr.present jid (worksOn_of_acting ha)
  refine ⟨job, hg, ?_⟩
  obtain ⟨-, -, hmain⟩ := step_main hs
  cases hp : s.pc with
  | killpg jid' sig =>
    rw [hp] at ha
    cases ha
    rw [step_killpg hp hg hs]
    exact ⟨⟨fun _ _ => rfl, Or.inr ⟨sig, rfl, rfl⟩, Or.inl rfl⟩, Or.inr (Or.inl rfl)⟩
  | fgStatus jid' | bgStatus jid' =>
    rw [hp] at ha
    cases ha
    simp only [answerStep, mainStep, hp, Option.some.injEq] at hmain
    subst hmain
    refine ⟨⟨fun i hi => ?_, Or.inl ⟨rfl, rfl⟩, Or.inl rfl⟩, Or.inl rfl⟩
    exact (SlotTable.get_modify _ _ _ _).trans (if_neg hi)
  | fgCont jid' =>
    rw [hp] at ha
    cases ha
    rw [step_fgCont hp hg hs]
    exact ⟨⟨fun _ _ => rfl, Or.inr ⟨.sigcont, rfl, rfl⟩, Or.inl rfl⟩, Or.inl rfl⟩
  | bgCont jid' =>
    rw [hp] at ha
    cases ha
    simp only [answerStep, mainStep, hp, forJob, hg, Option.some.injEq] at hmain
    subst hmain
    exact ⟨⟨fun _ _ => rfl, Or.inr ⟨.sigcont, rfl, rfl⟩, Or.inl rfl⟩, Or.inr (Or.inl rfl)⟩
  | fgBlock jid' =>
    rw [hp] at ha
    cases ha
    simp only [answerStep, mainStep, hp, Option.some.injEq] at hmain
    subst hmain
    exact ⟨⟨fun _ _ => rfl, Or.inl ⟨rfl, rfl⟩, Or.inl rfl⟩, Or.inr (Or.inr (Or.inl rfl))⟩
  | give stage target =>
    cases target with
    | shell => rw [hp] at ha; cases ha
    | job jid' pgrp =>
      rw [hp] at ha
      cases ha
      have hname := hr.named _ _ _ _ hp hg
      simp only [answerStep, mainStep, hp, Option.some.injEq] at hmain
      subst hmain
      have same : ∀ {u : State}, u.jid2job = s.jid2job → u.killed = s.killed →
          u.procs = s.procs → u.ttyPgrp = s.ttyPgrp ∨ u.ttyPgrp = job.pgid →
          ActsOn s u jid job :=
        fun hj hk hps ht => ⟨fun _ _ => by rw [hj], Or.inl ⟨hk, hps⟩, ht⟩
      cases stage with
      | block => exact ⟨same rfl rfl rfl (Or.inl rfl), Or.inl rfl⟩
      | restore => exact ⟨same rfl rfl rfl (Or.inl rfl), Or.inl rfl⟩
      | unblock => exact ⟨same rfl rfl rfl (Or.inl rfl), Or.inl rfl⟩
      | setPgrp =>
        simp only [State.give]
        split
        · exact ⟨same rfl rfl rfl (Or.inr hname.symm), Or.inl rfl⟩
        · exact ⟨same rfl rfl rfl (Or.inl rfl), Or.inr (Or.inr (Or.inr rfl))⟩
  | _ => rw [hp] at ha; cases ha

/-! ## Main result -/

/-- **The job a builtin is called for**, in every run: the call of `kill`, `stop`, `fg` or `bg`
leads to the job that the first argument is the decimal numeral of, and without such a job changes
nothing and leaves the shell running, exactly if there is such a job or the builtin is not `bg` and
no job has the jid that `atoi` makes of an argument. What a builtin does with a job concerns this
job only. -/
theorem builtin_argument_run (hr : Run ok s) :
    (∀ b args, b.namesJob = true → s.Calls b args → ∃ t, step s .main = some t ∧
      (s.Heeds b args t ↔ (∃ jid, NumeralNames s.jid2job args jid) ∨
        (b ≠ .bg ∧ AtoiNamesNone s.jid2job args))) ∧
    ∀ jid t, s.pc.acting = some jid → step s .main = some t →
      ∃ job, s.jid2job.get jid = some job ∧ ActsOn s t jid job ∧ t.pc.afterActing jid := by
  refine ⟨fun b args hn hc => ?_, fun jid t ha hs => acting_main hr ha hs⟩
  obtain ⟨t, hs, hu, hp⟩ := hc.step hn
  exact ⟨t, hs, heeds_iff hr.listed hu hp⟩

/-- A command line of some words, at its dispatch. -/
theorem calls_of_line {b : Builtin} {args : List Word} {name : Word} {rest : List AstCommand}
    {dup : Bool} {inp out : Option Word} {append bg : Bool} {addr : Addr}
    (hb : Builtin.ofName name = some b)
    (h : (s.pc, s.handler, s.line) = (.dispatch, none,
      [⟨addr, ⟨⟨name :: args, dup⟩ :: rest, inp, out, append, bg⟩⟩])) : s.Calls b args := by
  obtain ⟨hp, hrest⟩ := Prod.mk.inj h
  obtain ⟨hh, hl⟩ := Prod.mk.inj hrest
  exact ⟨hp, hh, _, _, _, _, _, hl, rfl, rfl, hb⟩

/-- `kill 01` while job 1 runs. -/
theorem builtin_argument_run_kill : ∃ s t, Lts.exec step (fun _ _ => true) (State.init 50 7 .usual)
      (startBackground ++ [.line ['k', 'i', 'l', 'l', ' ', '0', '1']]) = some s ∧
    step s .main = some t ∧ s.Heeds .kill [['0', '1']] t := by
  have hrun : (Lts.exec step (fun _ _ => true) (State.init 50 7 .usual)
      (startBackground ++ [.line ['k', 'i', 'l', 'l', ' ', '0', '1']])).map
      (fun s => ((s.jid2job.get 1).map Job.jid, (s.pc, s.handler, s.line))) =
      some (some 1, (.dispatch, none,
        [⟨1, ⟨[⟨[['k', 'i', 'l', 'l'], ['0', '1']], false⟩], none, none, false, false⟩⟩])) := by
    decide
  obtain ⟨s, hs, he⟩ := Option.map_eq_some_iff.1 hrun
  obtain ⟨hj, hcall⟩ := Prod.mk.inj he
  obtain ⟨job, hg, hjid⟩ := Option.map_eq_some_iff.1 hj
  obtain ⟨t, ht, hiff⟩ := (builtin_argument_run (Run.exec (by decide) hs)).1 .kill [['0', '1']] rfl
    (calls_of_line rfl hcall)
  have hnum : IsNumeral ['0', '1'] := ⟨List.cons_ne_nil _ _, by simp⟩
  exact ⟨s, t, hs, ht, hiff.2 (Or.inl ⟨1, _, _, rfl, hnum, rfl, 1, job, hg, hjid⟩)⟩

/-- `bg` without an argument ends the shell. -/
theorem builtin_argument_bg : ¬ ∀ (s : State) (b : Builtin) (args : List Word),
    Run (fun _ _ => true) s → b.namesJob = true → s.Calls b args →
      ∃ t, step s .main = some t ∧ s.Heeds b args t := by
  intro h
  have hrun : (Lts.exec step (fun _ _ => true) (State.init 50 7 .usual) [.line ['b', 'g']]).map
      (fun s => (s.pc, s.handler, s.line)) =
      some (.dispatch, none, [⟨0, ⟨[⟨[['b', 'g']], false⟩], none, none, false, false⟩⟩]) := by
    decide
  obtain ⟨s, hs, he⟩ := Option.map_eq_some_iff.1 hrun
  have hcalls : s.Calls .bg [] := calls_of_line rfl he
  obtain ⟨t, ht, hheeds⟩ := h s .bg [] (Run.exec (by decide) hs) rfl hcalls
  obtain ⟨t', ht', -, hp⟩ := hcalls.step rfl
  cases ht.symm.trans ht'
  have hlist := hheeds.unnamed (by rintro jid ⟨arg, rest, ha, -⟩; cases ha)
  rw [hp] at hlist
  cases hlist

/-- A numeral beyond 32 bits and a text that only starts with a numeral are taken for job 1. -/
example : atoi ['4', '2', '9', '4', '9', '6', '7', '2', '9', '7'] = 1 ∧ atoi ['1', 'a'] = 1 := by
  decide

end State

end Cush
