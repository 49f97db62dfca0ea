import Cush.Shell.Verify.Lifetime

/-!
# Who owns a pipeline

A pipeline of a line belongs to the line until `add_job` makes a job of it, and then to the job,
which frees it when it is deleted. No two jobs share a pipeline, and none is handed over twice, so
that no pipeline is freed twice, and what is read through the table of jobs has not been freed. This
holds in every run; it is the traversal of the line that can come upon a pipeline that a job has
freed.
-/

namespace Cush

/-- The pipeline that `handle_job` works on before it is that of a job. -/
def Pc.unadded : Pc → Option PipeNode
  | .handleJob node | .createPipes node .. | .blockSigchld node _ | .addJob node _ => some node
  | _ => none

namespace State

variable {s t : State} {e : Event} {ok : State → Event → Bool}

/-- The pipelines of which jobs can still be made. -/
def awaiting (s : State) : List Addr :=
  if s.pc.inLine then (s.pc.unadded.toList ++ s.toDispatch).map PipeNode.addr else []

structure Owned (s : State) : Prop where
  nodup : s.freed.Nodup
  apart : ∀ {i j a b}, s.jid2job.get i = some a → s.jid2job.get j = some b →
    a.pipe.addr = b.pipe.addr → i = j
  kept : ∀ {jid job}, s.jid2job.get jid = some job → job.pipe.addr ∉ s.freed
  once : s.awaiting.Nodup
  unowned : ∀ a ∈ s.awaiting, a ∉ s.freed ∧
    ∀ {jid job}, s.jid2job.get jid = some job → job.pipe.addr ≠ a
  jobs_lt : ∀ {jid job}, s.jid2job.get jid = some job → job.pipe.addr < s.nextAddr
  freed_lt : ∀ a ∈ s.freed, a < s.nextAddr
  awaiting_lt : ∀ a ∈ s.awaiting, a < s.nextAddr

/-- A step that frees nothing, and whose jobs have the pipelines they had. -/
theorem Owned.keep (h : s.Owned) (hf : t.freed = s.freed) (hn : t.nextAddr = s.nextAddr)
    (ha : t.awaiting.Sublist s.awaiting)
    (hj : ∀ {jid job}, t.jid2job.get jid = some job →
      ∃ job', s.jid2job.get jid = some job' ∧ job'.pipe = job.pipe) : t.Owned := by
  refine ⟨hf ▸ h.nodup, fun hi hj' he => ?_, fun hg => ?_, h.once.sublist ha,
    fun a hmem => ⟨?_, ?_⟩, fun hg => ?_, fun a hmem => ?_,
    fun a hmem => hn ▸ h.awaiting_lt a (ha.subset hmem)⟩
  · obtain ⟨a', ha', hpa⟩ := hj hi
    obtain ⟨b', hb', hpb⟩ := hj hj'
    exact h.apart ha' hb' (by rw [hpa, hpb, he])
  · obtain ⟨job', hg', hp⟩ := hj hg
    rw [hf, ← hp]
    exact h.kept hg'
  · rw [hf]
    exact (h.unowned a (ha.subset hmem)).1
  · intro jid job hg
    obtain ⟨job', hg', hp⟩ := hj hg
    rw [← hp]
    exact (h.unowned a (ha.subset hmem)).2 hg'
  · obtain ⟨job', hg', hp⟩ := hj hg
    rw [hn, ← hp]
    exact h.jobs_lt hg'
  · rw [hn]
    exact h.freed_lt a (hf ▸ hmem)

theorem awaiting_of_not_inLine (h : t.pc.inLine = false) : t.awaiting = [] := by
  unfold awaiting
  rw [h]
  rfl

/-- A step inside the body of the loop over the pipelines. -/
theorem awaiting_inside (hl : t.line = s.line) (hs : s.pc.inLine = true) (hsd : s.pc ≠ .dispatch)
    (htd : t.pc ≠ .dispatch) (hu : t.pc.unadded = none ∨ t.pc.unadded = s.pc.unadded) :
    t.awaiting.Sublist s.awaiting := by
  unfold awaiting toDispatch
  rw [hs, if_pos rfl, if_neg hsd, if_neg htd, hl]
  split
  · refine List.Sublist.map _ (List.Sublist.append ?_ (.refl _))
    rcases hu with hu | hu
    · rw [hu]
      exact List.nil_sublist _
    · rw [hu]
  · exact List.nil_sublist _

/-- A job that is deleted frees its pipeline. -/
theorem Owned.free (h : s.Owned) {jid : Nat} {job : Job} (hg : s.jid2job.get jid = some job)
    (hf : t.freed = job.pipe.addr :: s.freed) (hj : t.jid2job = s.jid2job.set jid none)
    (hn : t.nextAddr = s.nextAddr) (ha : t.awaiting.Sublist s.awaiting) : t.Owned := by
  have old : ∀ {i job'}, t.jid2job.get i = some job' → i ≠ jid ∧ s.jid2job.get i = some job' := by
    intro i job' hg'
    rw [hj] at hg'
    rcases SlotTable.get_set_eq_some.1 hg' with ⟨-, hnew⟩ | ⟨hne, hold⟩
    · cases hnew
    · exact ⟨hne, hold⟩
  refine ⟨?_, fun hi hj' => h.apart (old hi).2 (old hj').2, fun hg' hmem => ?_, h.once.sublist ha,
    fun a hmem => ⟨fun hfreed => ?_, fun hg' => (h.unowned a (ha.subset hmem)).2 (old hg').2⟩,
    fun hg' => hn ▸ h.jobs_lt (old hg').2, fun a hmem => ?_,
    fun a hmem => hn ▸ h.awaiting_lt a (ha.subset hmem)⟩
  · rw [hf]
    exact List.nodup_cons.2 ⟨h.kept hg, h.nodup⟩
  · rw [hf] at hmem
    rcases List.mem_cons.1 hmem with he | hmem
    · exact (old hg').1 (h.apart (old hg').2 hg he)
    · exact h.kept (old hg').2 hmem
  · rw [hf] at hfreed
    rcases List.mem_cons.1 hfreed with rfl | hfreed
    · exact (h.unowned _ (ha.subset hmem)).2 hg rfl
    · exact (h.unowned a (ha.subset hmem)).1 hfreed
  · rw [hf] at hmem
    rw [hn]
    rcases List.mem_cons.1 hmem with rfl | hmem
    · exact h.jobs_lt hg
    · exact h.freed_lt a hmem

/-- A job is made of the pipeline that `handle_job` works on. -/
theorem Owned.add (h : s.Owned) {node : PipeNode} {fds : Option (List Fd)} {jid : Nat} {job : Job}
    (hp : s.pc = .addJob node fds) (hpipe : job.pipe = node) (hf : t.freed = s.freed)
    (hj : t.jid2job = s.jid2job.set jid (some job)) (hn : t.nextAddr = s.nextAddr)
    (ha : t.awaiting = s.toDispatch.map PipeNode.addr) : t.Owned := by
  have hwas : s.awaiting = node.addr :: s.toDispatch.map PipeNode.addr := by
    unfold awaiting
    rw [hp]
    rfl
  have honce := h.once
  rw [hwas] at honce
  obtain ⟨hnew, honce⟩ := List.nodup_cons.1 honce
  obtain ⟨hfree, hjobs⟩ := h.unowned node.addr (hwas ▸ List.mem_cons_self)
  have hlt := h.awaiting_lt node.addr (hwas ▸ List.mem_cons_self)
  have hsub : ∀ {a}, a ∈ t.awaiting → a ∈ s.awaiting := fun hmem => by
    rw [hwas]
    exact List.mem_cons_of_mem _ (ha ▸ hmem)
  have old : ∀ {i b}, t.jid2job.get i = some b →
      (i = jid ∧ b = job) ∨ s.jid2job.get i = some b := by
    intro i b hb
    rw [hj] at hb
    rcases SlotTable.get_set_eq_some.1 hb with ⟨hi, hnew⟩ | ⟨-, hold⟩
    · exact Or.inl ⟨hi, (Option.some.inj hnew).symm⟩
    · exact Or.inr hold
  refine ⟨hf ▸ h.nodup, fun {i j a b} hi hj' he => ?_, fun hg => ?_, ha ▸ honce,
    fun a hmem => ⟨hf ▸ (h.unowned a (hsub hmem)).1, fun hg => ?_⟩, fun hg => ?_,
    fun a hmem => hn ▸ h.freed_lt a (hf ▸ hmem), fun a hmem => hn ▸ h.awaiting_lt a (hsub hmem)⟩
  · rcases old hi with ⟨rfl, rfl⟩ | hi <;> rcases old hj' with ⟨rfl, rfl⟩ | hj'
    · rfl
    · rw [hpipe] at he
      exact absurd he.symm (hjobs hj')
    · rw [hpipe] at he
      exact absurd he (hjobs hi)
    · exact h.apart hi hj' he
  · rw [hf]
    rcases old hg with ⟨-, rfl⟩ | hg
    · rw [hpipe]
      exact hfree
    · exact h.kept hg
  · rcases old hg with ⟨-, rfl⟩ | hg
    · rw [hpipe]
      rintro rfl
      exact hnew (ha ▸ hmem)
    · exact (h.unowned a (hsub hmem)).2 hg
  · rw [hn]
    rcases old hg with ⟨-, rfl⟩ | hg
    · rw [hpipe]
      exact hlt
    · exact h.jobs_lt hg

/-- The pipelines of a new line are new. -/
theorem Owned.line (h : s.Owned) {pipes : List AstPipeline} {line : List PipeNode}
    (hl : line = pipes.zipIdx.map fun (pipe, i) => ⟨s.nextAddr + i, pipe⟩)
    (hf : t.freed = s.freed) (hj : t.jid2job = s.jid2job)
    (hn : t.nextAddr = s.nextAddr + line.length) (ha : t.awaiting = line.map PipeNode.addr) :
    t.Owned := by
  have hnew : ∀ a ∈ t.awaiting, s.nextAddr ≤ a ∧ a < t.nextAddr := by
    intro a hmem
    rw [ha] at hmem
    obtain ⟨node, hnode, rfl⟩ := List.mem_map.1 hmem
    rw [hl] at hnode
    rw [hn, hl, List.length_map, List.length_zipIdx]
    exact newLine hnode
  have hle : s.nextAddr ≤ t.nextAddr := by
    rw [hn]
    exact Nat.le_add_right _ _
  refine ⟨hf ▸ h.nodup, fun hi hj' => h.apart (hj ▸ hi) (hj ▸ hj'), fun hg => hf ▸ h.kept (hj ▸ hg),
    ?_, fun a hmem => ⟨fun hfreed => ?_, fun hg he => ?_⟩,
    fun hg => Nat.lt_of_lt_of_le (h.jobs_lt (hj ▸ hg)) hle,
    fun a hmem => Nat.lt_of_lt_of_le (h.freed_lt a (hf ▸ hmem)) hle, fun a hmem => (hnew a hmem).2⟩
  · rw [ha, hl]
    exact nodup_newLine pipes s.nextAddr
  · exact absurd (h.freed_lt a (hf ▸ hfreed)) (Nat.not_lt.2 (hnew a hmem).1)
  · have hlt := h.jobs_lt (hj ▸ hg)
    rw [he] at hlt
    exact absurd hlt (Nat.not_lt.2 (hnew a hmem).1)

/-- Writing to a job keeps its pipeline. -/
theorem written {jid : Nat} {f : Job → Job} {jid' : Nat} {job : Job}
    (hg : (s.jid2job.modify jid f).get jid' = some job) (hf : ∀ job, (f job).pipe = job.pipe) :
    ∃ job', s.jid2job.get jid' = some job' ∧ job'.pipe = job.pipe := by
  rcases SlotTable.get_modify_eq_some.1 hg with ⟨rfl, job', hjob, rfl⟩ | ⟨-, hold⟩
  · exact ⟨job', hjob, (hf job').symm⟩
  · exact ⟨job, hold, rfl⟩

theorem Owned.move (h : s.Owned) (hm : Move s e t) : t.Owned := by
  have ended : t.freed = s.freed → t.nextAddr = s.nextAddr → t.jid2job = s.jid2job →
      t.pc.inLine = false → t.Owned := fun hf hn hj hpc =>
    h.keep hf hn (awaiting_of_not_inLine hpc ▸ List.nil_sublist _)
      fun {_ job} hg => ⟨job, hj ▸ hg, rfl⟩
  cases hm with
  | child | sigchld | setAttr | others | handlerStart | handlerReturn | lineEmpty =>
    exact h.keep rfl rfl (.refl _) fun {_ job} hg => ⟨job, hg, rfl⟩
  | handled out hwait hm hw hj hg =>
    refine h.keep rfl rfl (.refl _) fun {jid' job'} hg' => ?_
    rcases SlotTable.get_set_eq_some.1 hg' with ⟨rfl, hnew⟩ | ⟨-, hold⟩
    · cases hnew
      exact ⟨_, hg, (Job.handled_pipe _ _ _).symm⟩
    · exact ⟨job', hold, rfl⟩
  | lost | unblocked | eof | crash | abort | waitFatal | giveFatal | dispatchEnd | deadKeep =>
    exact ended rfl rfl rfl rfl
  | @deadEnd i exiting => cases exiting <;> exact ended rfl rfl rfl rfl
  | line hh hp hr hne hl => exact h.line hl rfl rfl rfl rfl
  | @dispatch node rest pc out hh hp hl ht =>
    refine h.keep rfl rfl ?_ fun {_ job} hg => ⟨job, hg, rfl⟩
    have hwas : s.awaiting = node.addr :: rest.map PipeNode.addr := by
      unfold awaiting toDispatch
      rw [hp, hl]
      rfl
    rw [hwas]
    unfold awaiting toDispatch
    dsimp only
    rw [hl]
    cases ht with
    | exit => exact List.nil_sublist _
    | handleJob => exact .refl _
    | _ => exact List.sublist_cons_self _ _
  | @listNext node rest hh hp hl =>
    refine h.keep rfl rfl ?_ fun {_ job} hg => ⟨job, hg, rfl⟩
    have hwas : s.awaiting = rest.map PipeNode.addr := by
      unfold awaiting toDispatch
      rw [hp, hl]
      rfl
    rw [hwas]
    exact .refl _
  | fgStatus hh hp | bgStatus hh hp =>
    refine h.keep rfl rfl ?_ fun {jid' job'} hg' => written hg' fun _ => rfl
    exact awaiting_inside rfl (by rw [hp]; rfl) (by rw [hp]; exact fun h => nomatch h)
      (fun h => nomatch h) (Or.inl rfl)
  | addJob hh hp hj hlt hjob =>
    refine h.add hp (by rw [hjob]) rfl rfl rfl ?_
    unfold awaiting toDispatch
    rw [hp]
    rfl
  | spawned hh hp ht hg =>
    refine h.keep rfl rfl ?_ fun {jid' job'} hg' => written hg' fun _ => rfl
    exact awaiting_inside rfl (by rw [hp]; rfl) (by rw [hp]; exact fun h => nomatch h)
      (fun h => nomatch h) (Or.inl rfl)
  | spawnFailed out tty hh hp ht hg =>
    refine h.free hg rfl rfl rfl ?_
    exact awaiting_inside rfl (by rw [hp]; rfl) (by rw [hp]; exact fun h => nomatch h)
      (fun h => nomatch h) (Or.inl rfl)
  | deadDelete out hh hp hg => exact h.free hg rfl rfl rfl (List.nil_sublist _)
  | _ =>
    refine h.keep rfl rfl ?_ fun {_ job} hg => ⟨job, hg, rfl⟩
    refine awaiting_inside rfl ?_ ?_ (fun h => nomatch h) ?_ <;> rw [‹s.pc = _›]
    · rfl
    · exact fun h => nomatch h
    · first
      | exact Or.inl rfl
      | exact Or.inr rfl

theorem Run.owned (hr : Run ok s) : s.Owned :=
  Lts.Reach.invariant (I := State.Owned)
    (fun s h => by
      obtain ⟨shellPgrp, attr, openMax, -, rfl⟩ := h
      exact ⟨.nil, fun hi => (nomatch hi), fun hg => (nomatch hg), .nil,
        fun _ hmem => (nomatch hmem), fun hg => (nomatch hg), fun _ hmem => (nomatch hmem),
        fun _ hmem => nomatch hmem⟩)
    (fun _ _ _ _ hI _ hs => hI.move (step_move hs).2) hr

/-- **No pipeline is freed twice, and none that a job of the table refers to has been freed**, in
every run, with or without failed spawns. A step frees the pipeline of a job that it deletes, and no
other. -/
theorem pipelines_run (hr : Run ok s) :
    s.freed.Nodup ∧
    (∀ jid job, s.jid2job.get jid = some job → job.pipe.addr ∉ s.freed) ∧
    (∀ i j a b, s.jid2job.get i = some a → s.jid2job.get j = some b →
      a.pipe.addr = b.pipe.addr → i = j) ∧
    ∀ e t, step s e = some t → t.freed = s.freed ∨ ∃ jid job, s.jid2job.get jid = some job ∧
      t.jid2job.get jid = none ∧ t.freed = job.pipe.addr :: s.freed := by
  have h := hr.owned
  refine ⟨h.nodup, fun _ _ hg => h.kept hg, fun _ _ _ _ hi hj he => h.apart hi hj he,
    fun e t hs => ?_⟩
  cases (step_move hs).2 with
  | spawnFailed out tty hh hp ht hg | deadDelete out hh hp hg =>
    exact Or.inr ⟨_, _, hg, SlotTable.get_set_self _ _ _, rfl⟩
  | _ => exact Or.inl rfl

/-- `x; y`, both of which fail to spawn. -/
def failTwice : List Event :=
  [.line ['x', ';', 'y']] ++ List.replicate 4 .main ++ [.setUp fun _ => 0, .spawnFailed none] ++
    List.replicate 11 .main ++ [.setUp fun _ => 0, .spawnFailed none]

theorem pipelines_run_fail : ∃ s,
    Lts.exec step (fun _ _ => true) (State.init 50 7 .usual) failTwice = some s ∧
      s.freed = [1, 0] ∧ s.freed.Nodup := by
  have hrun : (Lts.exec step (fun _ _ => true) (State.init 50 7 .usual) failTwice).map State.freed =
      some [1, 0] := by
    decide
  obtain ⟨s, hs, hf⟩ := Option.map_eq_some_iff.1 hrun
  exact ⟨s, hs, hf, (pipelines_run (Run.exec (by decide) hs)).1⟩

end State

end Cush
