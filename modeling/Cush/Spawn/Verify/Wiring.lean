import Cush.Spawn.SetUp
import Mathlib.Data.List.Basic

/-!
# The descriptors of the children of a pipeline

What the standard descriptors of each child refer to once its file actions have been executed, for a
pipeline whose set-up starts with `fd_index` 0. The actions touch no descriptor but the three
standard ones (`StdTable`), so a run of actions is described by what it does to these
(`Runs`); the pipes are close-on-exec and do not survive `exec` elsewhere.
-/

namespace Cush

variable {openMax : OpenMax}

/-! ## The index -/

/-- `fd_index` before the command at position `k` is set up, if it was 0 at the start. -/
def fdIndexBefore (k : Nat) : Nat :=
  2 * (k - 1)

/-- Wherever the index starts, each command but the last moves it alike. -/
theorem setUpPipe_fdIndex (openMax : OpenMax) (fa : FileActions) (newfds : Nat → Fd) (f : Nat)
    {k n : Nat} (hk : k + 1 < n) :
    (setUpPipe openMax fa newfds k n (f + fdIndexBefore k)).2 = f + fdIndexBefore (k + 1) := by
  unfold setUpPipe fdIndexBefore
  by_cases h0 : k = 0
  · simp [h0]
  · have hl : ¬ k = n - 1 := by omega
    simp only [h0, hl, if_false]
    omega

theorem setUpPipe_fdIndex_last (fa : FileActions) (newfds : Nat → Fd) {n : Nat} (hn : 1 < n) :
    (setUpPipe openMax fa newfds (n - 1) n (fdIndexBefore (n - 1))).2 = 0 := by
  unfold setUpPipe
  have h0 : ¬ n - 1 = 0 := by omega
  simp [h0]

/-- The read end of the pipe before a command and the write end of the pipe after it. -/
theorem setUpPipe_actions (fa : FileActions) (newfds : Nat → Fd) {k n : Nat} (hk : k < n)
    (hn : 1 < n) :
    (setUpPipe openMax fa newfds k n (fdIndexBefore k)).1 =
      let fa := if 0 < k then fa.adddup2 openMax (newfds (2 * (k - 1))) STDIN_FILENO else fa
      if k + 1 < n then fa.adddup2 openMax (newfds (2 * k + 1)) STDOUT_FILENO else fa := by
  unfold setUpPipe fdIndexBefore
  by_cases h0 : k = 0
  · simp [h0, hn]
  · have hpos : 0 < k := by omega
    by_cases hl : k = n - 1
    · have hlast : ¬ k + 1 < n := by omega
      simp only [h0, if_false, if_pos hl, if_pos hpos, if_neg hlast]
    · have hmid : k + 1 < n := by omega
      have hidx : 2 * (k - 1) + 2 + 1 = 2 * k + 1 := by omega
      simp only [h0, hl, if_false, if_pos hpos, if_pos hmid, hidx]

/-- The indices read are inside the array. -/
theorem setUpPipeReads_lt {k n : Nat} (hk : k < n) (hn : 1 < n) :
    ∀ i ∈ setUpPipeReads k n (fdIndexBefore k), i < 2 * (n - 1) := by
  unfold setUpPipeReads fdIndexBefore
  intro i hi
  split at hi
  · rw [List.mem_singleton.1 hi]
    omega
  · split at hi
    · rw [List.mem_singleton.1 hi]
      omega
    · simp only [List.mem_cons, List.not_mem_nil, or_false] at hi
      omega

/-! ## Runs of actions -/

/-- The table `t` differs from `t0` in the standard descriptors only, which refer to the given open
files and are kept by `exec`. -/
structure StdTable (t0 t : FdTable OpenFile) (stdin stdout stderr : OpenFile) : Prop where
  stdin : t.get STDIN_FILENO = some ⟨stdin, false⟩
  stdout : t.get STDOUT_FILENO = some ⟨stdout, false⟩
  stderr : t.get STDERR_FILENO = some ⟨stderr, false⟩
  others : ∀ fd, STDERR_FILENO < fd → t.get fd = t0.get fd

/-- The actions succeed and turn the first three files into the other three. -/
def Runs (t0 : FdTable OpenFile) (cnt : Nat) (fa : FileActions) (a b c a' b' c' : OpenFile) :
    Prop :=
  ∀ t, StdTable t0 t a b c → ∃ t', executeFrom cnt t fa = some t' ∧ StdTable t0 t' a' b' c'

theorem executeFrom_append (fa fb : FileActions) : ∀ (cnt : Nat) (t : FdTable OpenFile),
    executeFrom cnt t (fa ++ fb) =
      (executeFrom cnt t fa).bind fun t => executeFrom (cnt + fa.length) t fb := by
  induction fa with
  | nil => intro cnt t; rfl
  | cons a fa ih =>
    intro cnt t
    simp only [List.cons_append, executeFrom, List.length_cons]
    cases a.execute cnt t with
    | none => rfl
    | some t' =>
      simp only [Option.bind_some, ih]
      rw [Nat.add_right_comm, Nat.add_assoc]

variable {t0 : FdTable OpenFile} {cnt : Nat} {a b c a' b' c' a'' b'' c'' : OpenFile}

theorem Runs.nil : Runs t0 cnt [] a b c a b c :=
  fun t ht => ⟨t, rfl, ht⟩

theorem Runs.append {fa fb : FileActions} (ha : Runs t0 cnt fa a b c a' b' c')
    (hb : Runs t0 (cnt + fa.length) fb a' b' c' a'' b'' c'') :
    Runs t0 cnt (fa ++ fb) a b c a'' b'' c'' := by
  intro t ht
  obtain ⟨t1, h1, ht1⟩ := ha t ht
  obtain ⟨t2, h2, ht2⟩ := hb t1 ht1
  refine ⟨t2, ?_, ht2⟩
  rw [executeFrom_append, h1]
  exact h2

/-- One action that replaces one of the standard descriptors. -/
theorem Runs.single {act : FileAction} {f : OpenFile} (fd : Nat) (hfd : fd ≤ STDERR_FILENO)
    (h : ∀ t, StdTable t0 t a b c → ∃ t', act.execute cnt t = some t' ∧
      ∀ i, t'.get i = if i = fd then some ⟨f, false⟩ else t.get i) :
    Runs t0 cnt [act] a b c (if fd = STDIN_FILENO then f else a)
      (if fd = STDOUT_FILENO then f else b) (if fd = STDERR_FILENO then f else c) := by
  intro t ht
  obtain ⟨t', he, hget⟩ := h t ht
  have std : ∀ i g, t.get i = some ⟨g, false⟩ →
      t'.get i = some ⟨if fd = i then f else g, false⟩ := by
    intro i g hg
    rw [hget]
    by_cases hi : i = fd
    · rw [if_pos hi, if_pos hi.symm]
    · rw [if_neg hi, if_neg (Ne.symm hi), hg]
  refine ⟨t', by simp [executeFrom, he], std _ _ ht.stdin, std _ _ ht.stdout, std _ _ ht.stderr, ?_⟩
  intro i hi
  rw [hget, if_neg (by omega), ht.others i hi]

theorem runs_addopen_stdin (path : Word) (oflag : OpenMode) :
    Runs t0 cnt [.open STDIN_FILENO path oflag] a b c (.opened path oflag cnt) b c :=
  Runs.single STDIN_FILENO (by decide) fun t _ =>
    t.get_openAt STDIN_FILENO (.opened path oflag cnt)

theorem runs_addopen_stdout (path : Word) (oflag : OpenMode) :
    Runs t0 cnt [.open STDOUT_FILENO path oflag] a b c a (.opened path oflag cnt) c :=
  Runs.single STDOUT_FILENO (by decide) fun t _ =>
    t.get_openAt STDOUT_FILENO (.opened path oflag cnt)

theorem execute_dup2 {t : FdTable OpenFile} {fd newfd : Nat} {e : FdEntry OpenFile}
    (h : t.get fd = some e) (hne : fd ≠ newfd) :
    ∃ t', (FileAction.dup2 fd newfd).execute cnt t = some t' ∧
      ∀ i, t'.get i = if i = newfd then some ⟨e.file, false⟩ else t.get i := by
  simp only [FileAction.execute, if_neg hne]
  exact FdTable.get_dup2 h hne

theorem runs_dup2_stderr : Runs t0 cnt [.dup2 STDOUT_FILENO STDERR_FILENO] a b c a b b :=
  Runs.single STDERR_FILENO (by decide) fun _ ht => execute_dup2 ht.stdout (by decide)

/-- A pipe end on one of the standard descriptors. -/
theorem runs_dup2_pipe {src dst : Nat} {f : OpenFile} {cl : Bool} (hsrc : STDERR_FILENO < src)
    (hdst : dst ≤ STDERR_FILENO) (h : t0.get src = some ⟨f, cl⟩) :
    Runs t0 cnt [.dup2 src dst] a b c (if dst = STDIN_FILENO then f else a)
      (if dst = STDOUT_FILENO then f else b) (if dst = STDERR_FILENO then f else c) :=
  Runs.single dst hdst fun t ht =>
    execute_dup2 (e := ⟨f, cl⟩) ((ht.others src hsrc).trans h) (by omega)

/-! ## The actions of one command -/

/-- What a flag makes of stderr. -/
def dupIf (dup : Bool) (stdout stderr : OpenFile) : OpenFile :=
  if dup then stdout else stderr

/-- The action for stderr. -/
def stderrActions (dup : Bool) : FileActions :=
  if dup then [.dup2 STDOUT_FILENO STDERR_FILENO] else []

theorem runs_dupIf (dup : Bool) : Runs t0 cnt (stderrActions dup) a b c a b (dupIf dup b c) := by
  cases dup with
  | false => exact Runs.nil
  | true => exact runs_dup2_stderr

theorem adddup2_eq (fa : FileActions) (fd : Fd) (newfd : Nat) :
    fa.adddup2 openMax fd newfd = fa ++ FileActions.adddup2 openMax [] fd newfd := by
  unfold FileActions.adddup2
  split <;> simp

theorem adddup2_dup (fa : FileActions) (dup : Bool) :
    (if dup then fa.adddup2 openMax STDOUT_FILENO STDERR_FILENO else fa) =
      fa ++ stderrActions dup := by
  cases dup with
  | false => exact (List.append_nil fa).symm
  | true => exact FileActions.adddup2_stderr openMax fa

/-- The `oflag` for an output file. -/
def outputMode (append : Bool) : OpenMode :=
  if append then .append else .truncate

/-- The actions that `_set_up_io` adds. -/
def setUpIoActions (iored : Word) (append dup : Bool) : IoFlag → FileActions
  | .ioIn => .open STDIN_FILENO iored .readOnly :: stderrActions dup
  | .ioOut => .open STDOUT_FILENO iored (outputMode append) :: stderrActions dup

theorem setUpIo_eq (fa : FileActions) (iored : Word) (append dup : Bool) (flag : IoFlag) :
    setUpIo openMax fa iored append dup flag = fa ++ setUpIoActions iored append dup flag := by
  unfold setUpIo
  dsimp only
  rw [adddup2_dup]
  cases flag with
  | ioIn =>
    dsimp only
    rw [FileActions.addopen_std openMax fa (by decide), List.append_assoc]
    rfl
  | ioOut =>
    dsimp only
    rw [FileActions.addopen_std openMax fa (by decide),
      FileActions.addopen_std openMax fa (by decide)]
    cases append <;> exact List.append_assoc _ _ _

theorem runs_setUpIo_in (iored : Word) (append dup : Bool) :
    Runs t0 cnt (setUpIoActions iored append dup .ioIn) a b c (.opened iored .readOnly cnt) b
      (dupIf dup b c) :=
  (runs_addopen_stdin iored .readOnly).append (runs_dupIf dup)

theorem runs_setUpIo_out (iored : Word) (append dup : Bool) :
    Runs t0 cnt (setUpIoActions iored append dup .ioOut) a b c a
      (.opened iored (outputMode append) cnt)
      (dupIf dup (.opened iored (outputMode append) cnt) c) :=
  (runs_addopen_stdout iored (outputMode append)).append (runs_dupIf dup)

/-- The actions for the input and the output file of a pipeline. -/
def ioActions (pipe : AstPipeline) (cmd : AstCommand) : FileActions :=
  (match pipe.ioredInput with
    | some iored => setUpIoActions iored pipe.appendToOutput cmd.dupStderrToStdout .ioIn
    | none => []) ++
  (match pipe.ioredOutput with
    | some iored => setUpIoActions iored pipe.appendToOutput cmd.dupStderrToStdout .ioOut
    | none => [])

/-- The actions for the pipes before and after the command at position `k` of `n`. -/
def pipeActions (openMax : OpenMax) (newfds : Nat → Fd) (k n : Nat) : FileActions :=
  (if 0 < k then FileActions.adddup2 openMax [] (newfds (2 * (k - 1))) STDIN_FILENO else []) ++
  (if k + 1 < n then FileActions.adddup2 openMax [] (newfds (2 * k + 1)) STDOUT_FILENO else [])

/-- The actions of a command: the redirections, the pipes, and stderr. -/
theorem setUpCommand_eq (pipe : AstPipeline) (cmd : AstCommand) (newfds : Nat → Fd)
    (itr fdIndex : Nat) :
    (setUpCommand openMax pipe cmd newfds itr fdIndex).1 =
      (if 1 < pipe.commands.length then
        setUpPipe openMax (ioActions pipe cmd) newfds itr pipe.commands.length fdIndex
      else (ioActions pipe cmd, fdIndex)).1 ++ stderrActions cmd.dupStderrToStdout := by
  obtain ⟨commands, inp, out, append, bg⟩ := pipe
  unfold setUpCommand ioActions
  dsimp only
  rw [adddup2_dup]
  cases inp <;> cases out <;> simp only [setUpIo_eq, List.nil_append, List.append_nil]

/-- The actions of the command at position `k`, set up with the index that position has. -/
theorem setUpCommand_actions (pipe : AstPipeline) (cmd : AstCommand) (newfds : Nat → Fd) {k : Nat}
    (hk : k < pipe.commands.length) :
    (setUpCommand openMax pipe cmd newfds k (fdIndexBefore k)).1 =
      ioActions pipe cmd ++ pipeActions openMax newfds k pipe.commands.length ++
        stderrActions cmd.dupStderrToStdout := by
  have hpipe : ∀ fa : FileActions,
      (if 1 < pipe.commands.length then
        setUpPipe openMax fa newfds k pipe.commands.length (fdIndexBefore k)
      else (fa, fdIndexBefore k)).1 =
        fa ++ pipeActions openMax newfds k pipe.commands.length := by
    intro fa
    unfold pipeActions
    split
    · rename_i hn
      rw [setUpPipe_actions fa newfds hk hn]
      by_cases h0 : 0 < k <;> by_cases h1 : k + 1 < pipe.commands.length <;>
        simp only [h0, h1, if_true, if_false, List.append_nil, List.nil_append]
      · rw [adddup2_eq, adddup2_eq fa, List.append_assoc]
      · rw [adddup2_eq]
      · rw [adddup2_eq]
    · have h0 : ¬ 0 < k := by omega
      have h1 : ¬ k + 1 < pipe.commands.length := by omega
      simp [h0, h1]
  rw [setUpCommand_eq, hpipe]

/-! ## The child -/

/-- The descriptors of the shell when it spawns a command: the standard ones are kept by `exec`, the
array holds the pipes of the pipeline, and every pipe end is marked close-on-exec. All descriptors
are below the limit. -/
structure PipedTable (openMax : OpenMax) (t0 : FdTable OpenFile) (fds : List Fd) (n : Nat) :
    Prop where
  stdin : t0.get STDIN_FILENO = some ⟨.shell STDIN_FILENO, false⟩
  stdout : t0.get STDOUT_FILENO = some ⟨.shell STDOUT_FILENO, false⟩
  stderr : t0.get STDERR_FILENO = some ⟨.shell STDERR_FILENO, false⟩
  read : ∀ i, i + 1 < n → ∃ r : Nat, fds[2 * i]? = some (r : Fd) ∧ STDERR_FILENO < r ∧
    t0.get r = some ⟨.pipeRead i, true⟩
  write : ∀ i, i + 1 < n → ∃ w : Nat, fds[2 * i + 1]? = some (w : Fd) ∧ STDERR_FILENO < w ∧
    t0.get w = some ⟨.pipeWrite i, true⟩
  marked : ∀ fd e, t0.get fd = some e → e.file.IsPipeEnd → e.cloexec = true
  below : ∀ fd e, t0.get fd = some e → fd < openMax.val

/-- What the stdin of the command at position `k` should be. -/
def IsStdin (pipe : AstPipeline) (k : Nat) (f : OpenFile) : Prop :=
  if 0 < k then f = .pipeRead (k - 1)
  else
    match pipe.ioredInput with
    | some path => ∃ action, f = .opened path .readOnly action
    | none => f = .shell STDIN_FILENO

/-- What its stdout should be. -/
def IsStdout (pipe : AstPipeline) (k : Nat) (f : OpenFile) : Prop :=
  if k + 1 < pipe.commands.length then f = .pipeWrite k
  else
    match pipe.ioredOutput with
    | some path => ∃ action, f = .opened path (outputMode pipe.appendToOutput) action
    | none => f = .shell STDOUT_FILENO

/-- The descriptors of the command at position `k` after its `exec`. -/
structure Wired (pipe : AstPipeline) (k : Nat) (cmd : AstCommand) (t : FdTable OpenFile) :
    Prop where
  stdin : ∃ f, t.file STDIN_FILENO = some f ∧ IsStdin pipe k f
  stdout : ∃ f, t.file STDOUT_FILENO = some f ∧ IsStdout pipe k f
  stderr : t.file STDERR_FILENO =
    if cmd.dupStderrToStdout then t.file STDOUT_FILENO else some (.shell STDERR_FILENO)
  others : ∀ fd f, STDERR_FILENO < fd → t.file fd = some f → ¬ f.IsPipeEnd

/-- The redirections of the pipeline. -/
theorem runs_ioActions (pipe : AstPipeline) (cmd : AstCommand) :
    ∃ a' b' c', Runs t0 cnt (ioActions pipe cmd) a b c a' b' c' ∧
      (∀ path, pipe.ioredInput = some path → ∃ action, a' = .opened path .readOnly action) ∧
      (pipe.ioredInput = none → a' = a) ∧
      (∀ path, pipe.ioredOutput = some path →
        ∃ action, b' = .opened path (outputMode pipe.appendToOutput) action) ∧
      (pipe.ioredOutput = none → b' = b) ∧ (cmd.dupStderrToStdout = false → c' = c) := by
  obtain ⟨commands, inp, out, append, bg⟩ := pipe
  unfold ioActions
  have nodup : ∀ {f g : OpenFile}, cmd.dupStderrToStdout = false →
      dupIf cmd.dupStderrToStdout f g = g := by
    intro f g h
    rw [h]
    rfl
  cases inp with
  | none =>
    cases out with
    | none => exact ⟨a, b, c, Runs.nil, by simp, by simp, by simp, by simp, by simp⟩
    | some o =>
      refine ⟨a, _, _, (Runs.nil).append (runs_setUpIo_out o append _), by simp, by simp, ?_,
        by simp, nodup⟩
      rintro path ⟨⟩
      exact ⟨_, rfl⟩
  | some i =>
    cases out with
    | none =>
      refine ⟨_, b, _, (runs_setUpIo_in i append _).append Runs.nil, ?_, by simp, by simp, by simp,
        nodup⟩
      rintro path ⟨⟩
      exact ⟨_, rfl⟩
    | some o =>
      refine ⟨_, _, _, (runs_setUpIo_in i append _).append (runs_setUpIo_out o append _), ?_,
        by simp, ?_, by simp, fun h => (nodup h).trans (nodup h)⟩
      · rintro path ⟨⟩
        exact ⟨_, rfl⟩
      · rintro path ⟨⟩
        exact ⟨_, rfl⟩

/-- An open descriptor is duplicated onto a standard one. -/
theorem PipedTable.adddup2 {fds : List Fd} {n fd newfd : Nat} {e : FdEntry OpenFile}
    (h : PipedTable openMax t0 fds n) (hget : t0.get fd = some e) (hnew : newfd ≤ STDERR_FILENO) :
    FileActions.adddup2 openMax [] fd newfd = [.dup2 fd newfd] := by
  have hvalid : spawnValidFd openMax fd = true := by
    simpa [spawnValidFd] using h.below fd e hget
  rw [FileActions.adddup2_std openMax [] fd hnew, if_pos hvalid]
  rfl

/-- The pipes before and after a command. -/
theorem runs_pipeActions {fds : List Fd} {n : Nat} (h : PipedTable openMax t0 fds n)
    (mem : Nat → Fd) {k : Nat} (hk : k < n) :
    Runs t0 cnt (pipeActions openMax (readFds fds mem) k n) a b c
      (if 0 < k then .pipeRead (k - 1) else a) (if k + 1 < n then .pipeWrite k else b) c := by
  have read : Runs t0 cnt
      (if 0 < k then
        FileActions.adddup2 openMax [] (readFds fds mem (2 * (k - 1))) STDIN_FILENO
      else []) a b c (if 0 < k then .pipeRead (k - 1) else a) b c := by
    by_cases h0 : 0 < k
    · obtain ⟨r, hr, hlt, hget⟩ := h.read (k - 1) (by omega)
      have hfd : readFds fds mem (2 * (k - 1)) = (r : Fd) := by simp [readFds, hr]
      rw [if_pos h0, if_pos h0, hfd, h.adddup2 hget (by decide)]
      exact runs_dup2_pipe hlt (by decide) hget
    · rw [if_neg h0, if_neg h0]
      exact Runs.nil
  have write : ∀ {cnt a}, Runs t0 cnt
      (if k + 1 < n then
        FileActions.adddup2 openMax [] (readFds fds mem (2 * k + 1)) STDOUT_FILENO
      else []) a b c a (if k + 1 < n then .pipeWrite k else b) c := by
    intro cnt a
    by_cases h1 : k + 1 < n
    · obtain ⟨w, hw, hlt, hget⟩ := h.write k h1
      have hfd : readFds fds mem (2 * k + 1) = (w : Fd) := by simp [readFds, hw]
      rw [if_pos h1, if_pos h1, hfd, h.adddup2 hget (by decide)]
      exact runs_dup2_pipe hlt (by decide) hget
    · rw [if_neg h1, if_neg h1]
      exact Runs.nil
  exact read.append write

/-- **The child at position `k` is wired to the pipes around it.** -/
theorem spawniChild_wired {pipe : AstPipeline} {fds : List Fd}
    (h : PipedTable openMax t0 fds pipe.commands.length) (mem : Nat → Fd) (cmd : AstCommand)
    {k : Nat} (hk : k < pipe.commands.length) :
    ∃ t, spawniChild t0 (setUpCommand openMax pipe cmd (readFds fds mem) k (fdIndexBefore k)).1 =
        some t ∧ Wired pipe k cmd t := by
  have hstd : StdTable t0 t0 (.shell STDIN_FILENO) (.shell STDOUT_FILENO) (.shell STDERR_FILENO) :=
    ⟨h.stdin, h.stdout, h.stderr, fun _ _ => rfl⟩
  obtain ⟨a1, b1, c1, hio, hin, hnoin, hout, hnoout, hc⟩ :=
    @runs_ioActions t0 0 (.shell STDIN_FILENO) (.shell STDOUT_FILENO) (.shell STDERR_FILENO) pipe
      cmd
  obtain ⟨t, he, ht⟩ := ((hio.append (runs_pipeActions h mem hk)).append
    (runs_dupIf cmd.dupStderrToStdout)) t0 hstd
  rw [← setUpCommand_actions pipe cmd (readFds fds mem) hk] at he
  have kept : ∀ {fd f}, t.get fd = some ⟨f, false⟩ → t.exec.file fd = some f := by
    intro fd f hf
    simp [FdTable.file, FdTable.get_exec, hf]
  refine ⟨t.exec, by simp [spawniChild, he], ⟨_, kept ht.stdin, ?_⟩, ⟨_, kept ht.stdout, ?_⟩,
    ?_, ?_⟩
  · unfold IsStdin
    split
    · rfl
    · split
      · rename_i path hp
        exact hin path hp
      · rename_i hp
        exact hnoin hp
  · unfold IsStdout
    split
    · rfl
    · split
      · rename_i path hp
        exact hout path hp
      · rename_i hp
        exact hnoout hp
  · rw [kept ht.stderr, kept ht.stdout]
    cases hd : cmd.dupStderrToStdout with
    | true => simp [dupIf]
    | false => simp [dupIf, hc hd]
  · intro fd f hfd hf hpe
    rw [FdTable.file, FdTable.get_exec, ht.others fd hfd] at hf
    cases hg : t0.get fd with
    | none => simp [hg] at hf
    | some e =>
      cases hm : e.cloexec with
      | true => simp [hg, hm] at hf
      | false =>
        have hef : e.file = f := by simpa [hg, hm] using hf
        have hmark := h.marked fd e hg (hef ▸ hpe)
        rw [hm] at hmark
        cases hmark

/-! ## The loop -/

/-- A command moves the index as `_set_up_pipe` does, which a pipeline of one command does not
call. -/
theorem setUpCommand_setUpPipe (pipe : AstPipeline) (cmd : AstCommand) (newfds : Nat → Fd)
    (k i : Nat) : ∃ fa, (setUpCommand openMax pipe cmd newfds k i).2 =
      (if 1 < pipe.commands.length then setUpPipe openMax fa newfds k pipe.commands.length i
      else (fa, i)).2 :=
  ⟨_, rfl⟩

theorem setUpCommand_fdIndex (openMax : OpenMax) (pipe : AstPipeline) (cmd : AstCommand)
    (newfds : Nat → Fd) {k : Nat} (hk : k < pipe.commands.length) :
    (setUpCommand openMax pipe cmd newfds k (fdIndexBefore k)).2 =
      if k + 1 = pipe.commands.length then 0 else fdIndexBefore (k + 1) := by
  obtain ⟨fa, hfa⟩ := setUpCommand_setUpPipe pipe cmd newfds k (fdIndexBefore k)
  rw [hfa]
  by_cases hn : 1 < pipe.commands.length
  · rw [if_pos hn]
    by_cases hl : k + 1 = pipe.commands.length
    · obtain rfl : k = pipe.commands.length - 1 := by omega
      rw [if_pos hl, setUpPipe_fdIndex_last fa newfds hn]
    · have hidx := setUpPipe_fdIndex openMax fa newfds 0 (k := k) (n := pipe.commands.length)
        (by omega)
      rw [Nat.zero_add, Nat.zero_add] at hidx
      rw [if_neg hl, hidx]
  · have hk0 : k = 0 := by omega
    have hl : k + 1 = pipe.commands.length := by omega
    rw [if_neg hn, if_pos hl, hk0]
    rfl

/-- The set-ups from position `k` on, for the commands that are left. -/
theorem setUpCommands_spec (pipe : AstPipeline) (newfds : Nat → Fd) :
    ∀ (todo pre : List AstCommand), pipe.commands = pre ++ todo → todo ≠ [] →
      (setUpCommands openMax pipe newfds pre.length (fdIndexBefore pre.length) todo).2 = 0 ∧
      ∀ j cmd, todo[j]? = some cmd →
        (setUpCommands openMax pipe newfds pre.length (fdIndexBefore pre.length) todo).1[j]? =
          some
            (setUpCommand openMax pipe cmd newfds (pre.length + j)
              (fdIndexBefore (pre.length + j))).1 := by
  intro todo
  induction todo with
  | nil => intro _ _ hne; exact absurd rfl hne
  | cons cmd rest ih =>
    intro pre hpre _
    have hlen : pipe.commands.length = pre.length + (rest.length + 1) := by
      rw [hpre, List.length_append, List.length_cons]
    have hidx := setUpCommand_fdIndex openMax pipe cmd newfds (k := pre.length) (by omega)
    have hcons : ∀ idx,
        (setUpCommand openMax pipe cmd newfds pre.length (fdIndexBefore pre.length)).2 = idx →
        setUpCommands openMax pipe newfds pre.length (fdIndexBefore pre.length) (cmd :: rest) =
          ((setUpCommand openMax pipe cmd newfds pre.length (fdIndexBefore pre.length)).1 ::
            (setUpCommands openMax pipe newfds (pre.length + 1) idx rest).1,
          (setUpCommands openMax pipe newfds (pre.length + 1) idx rest).2) := by
      rintro idx rfl
      rfl
    cases rest with
    | nil =>
      rw [if_pos (by rw [hlen]; rfl)] at hidx
      rw [hcons 0 hidx]
      refine ⟨rfl, fun j c hj => ?_⟩
      cases j with
      | zero => cases hj; rfl
      | succ j => simp at hj
    | cons cmd' rest =>
      rw [if_neg (by rw [hlen, List.length_cons]; omega)] at hidx
      have hstep := ih (pre ++ [cmd]) (by rw [hpre, List.append_assoc]; rfl) (by simp)
      rw [List.length_append] at hstep
      obtain ⟨hzero, hget⟩ := hstep
      rw [hcons _ hidx]
      refine ⟨hzero, fun j c hj => ?_⟩
      cases j with
      | zero => cases hj; rfl
      | succ j =>
        have hj' := hget j c hj
        rw [show pre.length + (j + 1) = pre.length + [cmd].length + j by
          rw [List.length_singleton]; omega]
        exact hj'

/-- **Every child of a pipeline is wired to its neighbours**, and `fd_index` is 0 again after the
last command. -/
theorem handle_job_wiring (openMax : OpenMax) (pipe : AstPipeline) (fds : List Fd)
    (mem : Nat → Fd) (t0 : FdTable OpenFile)
    (h : PipedTable openMax t0 fds pipe.commands.length) :
    (setUpCommands openMax pipe (readFds fds mem) 0 0 pipe.commands).2 = 0 ∧
      ∀ k cmd, pipe.commands[k]? = some cmd →
        ∃ fa t, (setUpCommands openMax pipe (readFds fds mem) 0 0 pipe.commands).1[k]? = some fa ∧
          spawniChild t0 fa = some t ∧ Wired pipe k cmd t := by
  by_cases hne : pipe.commands = []
  · rw [hne]
    exact ⟨rfl, by simp⟩
  · obtain ⟨hzero, hget⟩ := setUpCommands_spec pipe (readFds fds mem) pipe.commands [] rfl hne
    refine ⟨hzero, fun k cmd hk => ?_⟩
    have hlt : k < pipe.commands.length := (List.getElem?_eq_some_iff.1 hk).1
    obtain ⟨t, ht, hw⟩ := spawniChild_wired h mem cmd hlt
    refine ⟨_, t, hget k cmd hk, ?_, hw⟩
    rw [List.length_nil, Nat.zero_add]
    exact ht

/-- `a < i | b >& o` with the pipe at the descriptors 3 and 4. -/
theorem handle_job_wiring_two :
    ∃ fa t, (setUpCommands .usual
        ⟨[⟨[['a']], false⟩, ⟨[['b']], true⟩], some ['i'], some ['o'], false, false⟩
        (readFds [3, 4] fun _ => 0) 0 0 [⟨[['a']], false⟩, ⟨[['b']], true⟩]).1[1]? = some fa ∧
      spawniChild ⟨[some ⟨.shell 0, false⟩, some ⟨.shell 1, false⟩, some ⟨.shell 2, false⟩,
        some ⟨.pipeRead 0, true⟩, some ⟨.pipeWrite 0, true⟩]⟩ fa = some t ∧
      Wired ⟨[⟨[['a']], false⟩, ⟨[['b']], true⟩], some ['i'], some ['o'], false, false⟩ 1
        ⟨[['b']], true⟩ t := by
  refine (handle_job_wiring _ _ [3, 4] (fun _ => 0) _ ?_).2 1 _ rfl
  refine ⟨rfl, rfl, rfl, ?_, ?_, ?_, ?_⟩
  · intro i hi
    have hi' : i + 1 < 2 := hi
    obtain rfl : i = 0 := by omega
    exact ⟨3, rfl, by decide, rfl⟩
  · intro i hi
    have hi' : i + 1 < 2 := hi
    obtain rfl : i = 0 := by omega
    exact ⟨4, rfl, by decide, rfl⟩
  · intro fd e he hp
    match fd, he with
    | 0, he => cases he; exact hp.elim
    | 1, he => cases he; exact hp.elim
    | 2, he => cases he; exact hp.elim
    | 3, he => cases he; rfl
    | 4, he => cases he; rfl
    | _ + 5, he => cases he
  · intro fd e he
    match fd, he with
    | 0, _ | 1, _ | 2, _ | 3, _ | 4, _ => decide
    | _ + 5, he => cases he

end Cush
