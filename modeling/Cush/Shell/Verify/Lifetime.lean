import Cush.Shell.Verify.Context
import Mathlib.Data.List.Nodup

/-!
# The pipelines of a line

The loop over the pipelines of a line and `handle_job` read pipelines that belong to jobs by then.
`delete_job` frees them, at the end of the line or where a spawn fails. In a run without failed
spawns no freed pipeline is read, and each pipeline of a line is dispatched once and in order.
-/

namespace Cush

/-- Whether the main program is in the loop over the pipelines of a line. -/
def Pc.inLine : Pc → Bool
  | .readline | .deleteDeadJobs .. | .exited | .fatal _ | .crashed | .aborted => false
  | _ => true

/-- Whether it has left the loop at the end of a line. -/
def Pc.lineDone : Pc → Bool
  | .readline | .deleteDeadJobs _ false => true
  | _ => false

namespace State

variable {s t : State} {e : Event}

/-- No spawn fails. -/
def spawnsSucceed (_ : State) : Event → Bool
  | .spawnFailed _ => false
  | _ => true

/-! ## No freed pipeline is read -/

structure Held (s : State) : Prop where
  jobs : ∀ {jid job}, s.jid2job.get jid = some job → job.pipe.addr < s.nextAddr
  line : ∀ node ∈ s.line, node.addr < s.nextAddr
  freed : ∀ a ∈ s.freed, a < s.nextAddr
  held : s.pc.inLine = true → ∀ node ∈ s.line, node.addr ∉ s.freed
  node : ∀ {node}, s.pc.node = some node → s.line.head? = some node

theorem DispatchTo.inLine {jid2job : SlotTable Job} {node : PipeNode} {pc : Pc}
    (h : DispatchTo jid2job node pc) :
    (pc.inLine = true ∨ pc = .deleteDeadJobs 0 true) ∧ pc ≠ .dispatch ∧
      ∀ node', pc.node = some node' → node' = node := by
  cases h with
  | exit => exact ⟨Or.inr rfl, (fun h => nomatch h), fun _ h => nomatch h⟩
  | handleJob => exact ⟨Or.inl rfl, (fun h => nomatch h), fun _ h => (Option.some.inj h).symm⟩
  | _ => exact ⟨Or.inl rfl, (fun h => nomatch h), fun _ h => nomatch h⟩

/-- A step that frees nothing and stays on the line. -/
theorem Held.keep (h : s.Held) (hl : t.line = s.line) (hf : t.freed = s.freed)
    (hn : t.nextAddr = s.nextAddr)
    (hj : ∀ {jid job}, t.jid2job.get jid = some job → job.pipe.addr < s.nextAddr)
    (hin : t.pc.inLine = true → s.pc.inLine = true)
    (hnode : ∀ {node}, t.pc.node = some node → s.line.head? = some node) : t.Held := by
  refine ⟨fun hg => hn ▸ hj hg, ?_, ?_, ?_, fun hp => ?_⟩
  · rw [hl, hn]
    exact h.line
  · rw [hf, hn]
    exact h.freed
  · rw [hl, hf]
    exact fun hi => h.held (hin hi)
  · rw [hl]
    exact hnode hp

/-- Writing a job that has the pipeline of an old one. -/
theorem Held.jobs_set (h : s.Held) {jid : Nat} {job : Job} (hp : job.pipe.addr < s.nextAddr)
    {jid' : Nat} {job' : Job} (hg : (s.jid2job.set jid (some job)).get jid' = some job') :
    job'.pipe.addr < s.nextAddr := by
  rcases SlotTable.get_set_eq_some.1 hg with ⟨-, hnew⟩ | ⟨-, hold⟩
  · cases hnew
    exact hp
  · exact h.jobs hold

theorem Held.jobs_modify (h : s.Held) {jid : Nat} {f : Job → Job} {jid' : Nat} {job' : Job}
    (hg : (s.jid2job.modify jid f).get jid' = some job') (hf : ∀ job, (f job).pipe = job.pipe) :
    job'.pipe.addr < s.nextAddr := by
  rcases SlotTable.get_modify_eq_some.1 hg with ⟨-, job, hjob, rfl⟩ | ⟨-, hold⟩
  · rw [hf]
    exact h.jobs hjob
  · exact h.jobs hold

/-- The nodes of a new line. -/
theorem newLine {pipes : List AstPipeline} {next : Addr} {node : PipeNode}
    (h : node ∈ pipes.zipIdx.map fun (pipe, i) => (⟨next + i, pipe⟩ : PipeNode)) :
    next ≤ node.addr ∧ node.addr < next + pipes.length := by
  obtain ⟨⟨pipe, i⟩, hmem, rfl⟩ := List.mem_map.1 h
  have hlt : i < pipes.length := by simpa using (List.mem_zipIdx hmem).2.1
  exact ⟨Nat.le_add_right _ _, Nat.add_lt_add_left hlt _⟩

theorem Held.move (h : s.Held) (hg : s.spawnsSucceed e = true) (hm : Move s e t) : t.Held := by
  cases hm with
  | child | sigchld | setAttr | others | handlerStart | handlerReturn | lineEmpty =>
    exact h.keep rfl rfl rfl h.jobs id h.node
  | handled out hwait hm hw hj hget =>
    exact h.keep rfl rfl rfl
      (h.jobs_set (by rw [Job.handled_pipe]; exact h.jobs hget)) id h.node
  | lost | unblocked | eof | crash | abort | waitFatal | giveFatal | dispatchEnd | deadKeep =>
    exact h.keep rfl rfl rfl h.jobs (fun hi => nomatch hi) fun hp => nomatch hp
  | @deadEnd i exiting =>
    cases exiting <;> exact h.keep rfl rfl rfl h.jobs (fun hi => nomatch hi) fun hp => nomatch hp
  | @line expansion cline scanner line hh hp hr hne hl =>
    have hlen : line.length = cline.pipes.length := by
      rw [hl, List.length_map, List.length_zipIdx]
    have hnew : ∀ node ∈ line, s.nextAddr ≤ node.addr ∧ node.addr < s.nextAddr + line.length := by
      intro node hmem
      rw [hlen]
      exact newLine (hl ▸ hmem)
    refine ⟨fun hget => ?_, fun node hmem => (hnew node hmem).2, fun a ha => ?_,
      fun _ node hmem hfreed => ?_, fun hn => nomatch hn⟩
    · exact Nat.lt_add_right _ (h.jobs hget)
    · exact Nat.lt_add_right _ (h.freed a ha)
    · exact absurd (h.freed _ hfreed) (Nat.not_lt.2 (hnew node hmem).1)
  | @dispatch node rest pc out hh hp hl ht =>
    refine h.keep rfl rfl rfl h.jobs (fun _ => by rw [hp]; rfl) fun hn => ?_
    rw [hl, ht.inLine.2.2 _ hn]
    rfl
  | @listNext node rest hh hp hl =>
    have hsub : ∀ n ∈ rest, n ∈ s.line := fun n hn => hl ▸ List.mem_cons_of_mem _ hn
    exact ⟨h.jobs, fun n hn => h.line n (hsub n hn), h.freed,
      fun _ n hn => h.held (by rw [hp]; rfl) n (hsub n hn), fun hn => nomatch hn⟩
  | fgStatus hh hp | bgStatus hh hp =>
    exact h.keep rfl rfl rfl (fun hget => h.jobs_modify hget fun _ => rfl)
      (fun _ => by rw [hp]; rfl) fun hn => nomatch hn
  | @addJob node fds jid job hh hp hj hlt hjob =>
    have hhead : s.line.head? = some node := h.node (by rw [hp]; rfl)
    have hlt : job.pipe.addr < s.nextAddr := by
      rw [hjob]
      exact h.line node (List.mem_of_head? hhead)
    refine h.keep rfl rfl rfl (h.jobs_set hlt) (fun _ => by rw [hp]; rfl) fun hn => ?_
    cases hn
    exact hhead
  | @spawned ctx fa cmd rest job pid hh hp =>
    have hhead : s.line.head? = some ctx.node := h.node (by rw [hp]; rfl)
    refine h.keep rfl rfl rfl (fun hget => h.jobs_modify hget fun _ => rfl)
      (fun _ => by rw [hp]; rfl) fun hn => ?_
    cases hn
    exact hhead
  | spawnFailed => cases hg
  | @deadDelete i k exiting job out hh hp hget ha =>
    refine ⟨fun hg => ?_, h.line, fun a hmem => ?_, fun hi => (nomatch hi), fun hn => nomatch hn⟩
    · rcases SlotTable.get_set_eq_some.1 hg with ⟨-, hnew⟩ | ⟨-, hold⟩
      · cases hnew
      · exact h.jobs hold
    · rcases List.mem_cons.1 hmem with rfl | hmem
      · exact h.jobs hget
      · exact h.freed a hmem
  | _ =>
    refine h.keep rfl rfl rfl h.jobs (fun _ => by rw [‹s.pc = _›]; rfl) fun hn => ?_
    first
    | cases hn; done
    | exact h.node (by rw [‹s.pc = _›]; exact hn)

theorem Held.init {s : State} (h : s.Initial) : s.Held := by
  obtain ⟨shellPgrp, attr, openMax, -, rfl⟩ := h
  exact ⟨fun hg => (nomatch hg), fun _ hn => (nomatch hn), fun _ ha => (nomatch ha),
    fun hi => (nomatch hi), fun hn => nomatch hn⟩

theorem Run.held (hr : Run spawnsSucceed s) : s.Held :=
  Lts.Reach.invariant (I := State.Held) (fun _ => Held.init)
    (fun _ _ _ _ hI hg hs => hI.move hg (step_move hs).2) hr

theorem node_inLine {pc : Pc} {node : PipeNode} (h : pc.node = some node) : pc.inLine = true := by
  cases pc <;> first | rfl | cases h

/-- A pipeline of the line has not been freed. -/
theorem Held.reads (h : s.Held) (hi : s.pc.inLine = true) {node : PipeNode} (hn : node ∈ s.line) :
    (s.readFreed || s.freed.contains node.addr) = s.readFreed := by
  have hc : s.freed.contains node.addr = false := by
    rw [Bool.eq_false_iff]
    exact fun hc => h.held hi node hn (List.contains_iff_mem.1 hc)
  rw [hc, Bool.or_false]

theorem Held.reads_node (h : s.Held) {node : PipeNode} (hn : s.pc.node = some node) :
    (s.readFreed || s.freed.contains node.addr) = s.readFreed :=
  h.reads (node_inLine hn) (List.mem_of_head? (h.node hn))

theorem Held.reads_current (h : s.Held) {rf : Bool} (hr : s.ReadsCurrent rf) :
    rf = s.readFreed := by
  rcases hr with hr | ⟨node, hn | ⟨hp, hn⟩, hr⟩
  · exact hr
  · exact hr.trans (h.reads_node hn)
  · exact hr.trans (h.reads (by rw [hp]; rfl) (List.mem_of_head? hn))

theorem Held.readFreed (h : s.Held) (hm : Move s e t) (hg : s.spawnsSucceed e = true) :
    t.readFreed = s.readFreed := by
  cases hm with
  | crash hh o ds out tty hrf => exact h.reads_current hrf
  | abort hh sc hist m o hrf => exact h.reads_current hrf
  | @dispatch node rest pc out hh hp hl | @listNext node rest hh hp hl =>
    exact h.reads (by rw [hp]; rfl) (hl ▸ List.mem_cons_self)
  | handleJob hh hp | malloc hh hp | addJob hh hp | closeFdsWait _ hh hp | closeFds _ _ hh hp
  | setUp hh hp | spawned hh hp => exact h.reads_node (by rw [hp]; rfl)
  | spawnFailed => cases hg
  | _ => rfl

/-! ## Each pipeline is dispatched once and in order -/

/-- The pipelines that are still to be dispatched. -/
def toDispatch (s : State) : List PipeNode :=
  if s.pc = .dispatch then s.line else s.line.tail

structure InOrder (s : State) : Prop where
  nodup : s.lineAddrs.Nodup
  sofar : s.pc ≠ .crashed → s.dispatched <+: s.lineAddrs
  rest : s.pc.inLine = true → s.dispatched ++ s.toDispatch.map PipeNode.addr = s.lineAddrs
  done : s.pc.lineDone = true → s.dispatched = s.lineAddrs

/-- A step that neither dispatches a pipeline nor goes on to the next one. -/
theorem InOrder.keep (h : s.InOrder) (hl : t.line = s.line) (hd : t.dispatched = s.dispatched)
    (ha : t.lineAddrs = s.lineAddrs) (hc : s.pc ≠ .crashed)
    (hin : t.pc.inLine = true → s.pc.inLine = true ∧ (t.pc = .dispatch ↔ s.pc = .dispatch))
    (hdone : t.pc.lineDone = true → s.pc.lineDone = true) : t.InOrder := by
  refine ⟨ha ▸ h.nodup, fun _ => ?_, fun hi => ?_, fun hn => ?_⟩
  · rw [hd, ha]
    exact h.sofar hc
  · obtain ⟨hi', hpc⟩ := hin hi
    have hrest := h.rest hi'
    unfold toDispatch at hrest ⊢
    simp only [hpc, hl, hd, ha]
    exact hrest
  · rw [hd, ha]
    exact h.done (hdone hn)

/-- A step inside the loop at other points than its test. -/
theorem InOrder.inside (h : s.InOrder) (hs : s.pc.inLine = true) (hsd : s.pc ≠ .dispatch)
    (hl : t.line = s.line) (hd : t.dispatched = s.dispatched) (ha : t.lineAddrs = s.lineAddrs)
    (htd : t.pc ≠ .dispatch) (hdone : t.pc.lineDone = false) : t.InOrder := by
  refine h.keep hl hd ha (fun hc => ?_) (fun _ => ⟨hs, iff_of_false htd hsd⟩) fun hn => ?_
  · rw [hc] at hs
    cases hs
  · rw [hdone] at hn
    cases hn

theorem nodup_newLine (pipes : List AstPipeline) (next : Addr) :
    ((pipes.zipIdx.map fun (pipe, i) => (⟨next + i, pipe⟩ : PipeNode)).map
      PipeNode.addr).Nodup := by
  rw [List.map_map]
  have hmap : pipes.zipIdx.map (PipeNode.addr ∘ fun (pipe, i) => (⟨next + i, pipe⟩ : PipeNode)) =
      (pipes.zipIdx.map Prod.snd).map (next + ·) := by
    rw [List.map_map]
    rfl
  rw [hmap, List.zipIdx_map_snd]
  exact List.Nodup.map (fun _ _ h => Nat.add_left_cancel h) List.nodup_range'

theorem InOrder.move (h : s.InOrder) (hl : s.pc.live = true) (hm : Move s e t) : t.InOrder := by
  have hc : s.pc ≠ .crashed := by
    intro hc
    rw [hc] at hl
    cases hl
  cases hm with
  | child | sigchld | setAttr | others | handlerStart | handlerReturn | lineEmpty | handled =>
    exact h.keep rfl rfl rfl hc (fun hi => ⟨hi, Iff.rfl⟩) id
  | lost | unblocked | eof | abort | waitFatal | giveFatal =>
    exact h.keep rfl rfl rfl hc (fun hi => nomatch hi) fun hn => nomatch hn
  | crash => exact ⟨h.nodup, fun hc => absurd rfl hc, fun hi => (nomatch hi), fun hn => nomatch hn⟩
  | @line expansion cline scanner line hh hp hr hne hl' =>
    refine ⟨?_, fun _ => List.nil_prefix, fun _ => ?_, fun hn => nomatch hn⟩
    · change (line.map PipeNode.addr).Nodup
      rw [hl']
      exact nodup_newLine cline.pipes s.nextAddr
    · rfl
  | dispatchEnd hh hp hl' =>
    have hrest := h.rest (by rw [hp]; rfl)
    unfold toDispatch at hrest
    rw [if_pos hp, hl'] at hrest
    exact ⟨h.nodup, fun _ => h.sofar hc, fun hi => (nomatch hi),
      fun _ => (List.append_nil _).symm.trans hrest⟩
  | @dispatch node rest pc out hh hp hl' ht =>
    have hrest := h.rest (by rw [hp]; rfl)
    unfold toDispatch at hrest
    rw [if_pos hp, hl', List.map_cons, List.append_cons] at hrest
    obtain ⟨hpc, hnd, -⟩ := ht.inLine
    refine ⟨h.nodup, fun _ => ⟨_, hrest⟩, fun _ => ?_, fun hn => ?_⟩
    · unfold toDispatch
      dsimp only
      rw [if_neg hnd, hl']
      exact hrest
    · rcases hpc with hi | rfl
      · cases pc <;> first | (cases hi; done) | cases hn
      · cases hn
  | @listNext node rest hh hp hl' =>
    have hrest := h.rest (by rw [hp]; rfl)
    unfold toDispatch at hrest
    rw [if_neg (by rw [hp]; exact fun h => nomatch h), hl'] at hrest
    exact ⟨h.nodup, fun _ => h.sofar hc, fun _ => hrest, fun hn => nomatch hn⟩
  | @deadEnd i exiting hh hp =>
    cases exiting with
    | true => exact h.keep rfl rfl rfl hc (fun hi => nomatch hi) fun hn => nomatch hn
    | false => exact h.keep rfl rfl rfl hc (fun hi => nomatch hi) fun _ => by rw [hp]; rfl
  | @deadKeep i k exiting hh hp | @deadDelete i k exiting job out hh hp =>
    refine h.keep rfl rfl rfl hc (fun hi => nomatch hi) fun hn => ?_
    rw [hp]
    cases exiting with
    | true => cases hn
    | false => rfl
  | _ =>
    refine h.inside ?_ ?_ rfl rfl rfl (fun hd => nomatch hd) rfl <;> rw [‹s.pc = _›]
    · rfl
    · exact fun hd => nomatch hd

theorem InOrder.init {s : State} (h : s.Initial) : s.InOrder := by
  obtain ⟨shellPgrp, attr, openMax, -, rfl⟩ := h
  exact ⟨.nil, fun _ => List.nil_prefix, fun hi => (nomatch hi), fun _ => rfl⟩

theorem Run.inOrder {ok : State → Event → Bool} (hr : Run ok s) : s.InOrder :=
  Lts.Reach.invariant (I := State.InOrder) (fun _ => InOrder.init)
    (fun _ _ _ _ hI _ hs => hI.move (step_move hs).1 (step_move hs).2) hr

/-- **The pipelines of a line are dispatched once and in order, and none is read after it has been
freed**, in every run in which no spawn fails. What has been dispatched is the beginning of the
line, and the whole line where the loop has ended. -/
theorem line_run (hr : Run spawnsSucceed s) :
    s.readFreed = false ∧ s.lineAddrs.Nodup ∧
    (s.pc ≠ .crashed → s.dispatched <+: s.lineAddrs) ∧
    (s.pc.lineDone = true → s.dispatched = s.lineAddrs) := by
  have horder := Run.inOrder hr
  refine ⟨?_, horder.nodup, horder.sofar, horder.done⟩
  refine Lts.Reach.invariant (I := fun s => s.readFreed = false) ?_ ?_ hr
  · rintro s ⟨shellPgrp, attr, openMax, -, rfl⟩
    rfl
  · intro s e t hr hI hg hs
    exact ((Run.held hr).readFreed (step_move hs).2 hg).trans hI

/-- `s; s` -/
def runTwo : List Event :=
  let run (pid : Pid) : List Event :=
    [.main, .main, .main, .main, .setUp fun _ => 0, .spawned pid, .main, .main,
      .child pid (.exit 0), .waitpid pid] ++ List.replicate 7 .main
  .line ['s', ';', 's'] :: (run 100 ++ run 101 ++ [.main])

theorem line_run_two : ∃ s, Lts.exec step spawnsSucceed (State.init 50 7 .usual) runTwo = some s ∧
    s.pc = .deleteDeadJobs 0 false ∧ s.lineAddrs = [0, 1] ∧ s.dispatched = s.lineAddrs := by
  have hrun : (Lts.exec step spawnsSucceed (State.init 50 7 .usual) runTwo).map
      (fun s => (s.pc, s.lineAddrs)) = some (.deleteDeadJobs 0 false, [0, 1]) := by
    decide
  obtain ⟨s, hs, he⟩ := Option.map_eq_some_iff.1 hrun
  obtain ⟨hp, ha⟩ := Prod.ext_iff.1 he
  have hdone := (line_run (Run.exec (by decide) hs)).2.2.2
  exact ⟨s, hs, hp, ha, hdone (by rw [show s.pc = .deleteDeadJobs 0 false from hp]; rfl)⟩

/-- `n; s` where the first spawn fails: the job of the first pipeline is deleted, and the loop reads
the link of the freed pipeline. -/
theorem line_spawnFailed : ∃ s t, Run (fun _ _ => true) s ∧ s.pc = .listNext ∧
    s.line.head?.map PipeNode.addr = some 0 ∧ s.freed = [0] ∧ step s .main = some t ∧
      t.pc = .dispatch ∧ t.readFreed = true := by
  have hrun : ((Lts.exec step (fun _ _ => true) (State.init 50 7 .usual)
      ([.line ['n', ';', 's'], .main, .main, .main, .main, .setUp fun _ => 0, .spawnFailed none] ++
        List.replicate 6 .main)).bind fun s => (step s .main).map fun t => (s.pc,
          s.line.head?.map PipeNode.addr, s.freed, t.pc, t.readFreed)) =
      some (.listNext, some 0, [0], .dispatch, true) := by
    decide
  obtain ⟨s, hs, hstep⟩ := Option.bind_eq_some_iff.1 hrun
  obtain ⟨t, ht, he⟩ := Option.map_eq_some_iff.1 hstep
  simp only [Prod.mk.injEq] at he
  obtain ⟨hp, hl, hf, htp, hrf⟩ := he
  exact ⟨s, t, Run.exec (by decide) hs, hp, hl, hf, ht, htp, hrf⟩

end State

end Cush
