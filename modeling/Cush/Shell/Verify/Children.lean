import Cush.Kernel
import Mathlib.Data.List.Nodup

/-!
# The children of the shell

What the operations of the kernel leave alone: a child keeps its pid, its group and its owner until
it is reaped, and only `waitpid` removes one, and only a zombie.
-/

namespace Cush

/-- `p'` is `p` in another state. -/
structure Proc.Same (p p' : Proc) : Prop where
  pid : p'.pid = p.pid
  pgid : p'.pgid = p.pgid
  owner : p'.owner = p.owner

namespace Proc

variable {p p' : Proc}

theorem Same.refl (p : Proc) : p.Same p :=
  ⟨rfl, rfl, rfl⟩

theorem change_same {c : Change} (h : p.change c = some p') : p.Same p' := by
  unfold change at h
  split at h <;> repeat' split at h
  all_goals cases h
  all_goals exact ⟨rfl, rfl, rfl⟩

theorem signal_same (p : Proc) (sig : Signal) : p.Same (p.signal sig) := by
  unfold signal
  repeat' split
  all_goals exact ⟨rfl, rfl, rfl⟩

/-- `SIGCONT` leaves no stop to be reported. -/
theorem signal_sigcont (p : Proc) (sig : Signal) (reported : Bool) :
    (p.signal .sigcont).state ≠ .stopped sig reported := by
  unfold signal
  split
  · rename_i status hz
    rw [hz]
    exact fun h => nomatch h
  · rw [if_pos rfl]
    split
    · exact fun h => nomatch h
    · rename_i hns
      exact hns sig reported

/-- A signal stops no child at once. -/
theorem signal_stopped {sig sig' : Signal} {reported : Bool}
    (h : (p.signal sig).state = .stopped sig' reported) : p.state = .stopped sig' reported := by
  unfold signal at h
  repeat' split at h
  all_goals first | exact h | cases h

/-- Only a stop makes a child stopped. -/
theorem change_stopped {c : Change} {sig : Signal} {reported : Bool} (h : p.change c = some p')
    (hs : p'.state = .stopped sig reported) : c = .stop sig := by
  unfold change at h
  split at h <;> repeat' split at h
  all_goals cases h
  all_goals cases hs
  all_goals rfl

end Proc

variable {procs procs' : List Proc} {pid : Pid}

theorem find_pid {p : Proc} (h : (procs.find? fun q => q.pid = pid) = some p) :
    p ∈ procs ∧ p.pid = pid :=
  ⟨List.mem_of_find?_eq_some h, by simpa using List.find?_some h⟩

/-- Pids identify children. -/
theorem eq_of_pid (hn : (procs.map Proc.pid).Nodup) {p q : Proc} (hp : p ∈ procs) (hq : q ∈ procs)
    (he : p.pid = q.pid) : p = q :=
  List.inj_on_of_nodup_map hn hp hq he

theorem changeProc_cases {c : Change} (h : changeProc procs pid c = some procs') :
    ∃ p p', p ∈ procs ∧ p.pid = pid ∧ p.change c = some p' ∧
      procs' = procs.map fun q => if q.pid = pid then p' else q := by
  unfold changeProc at h
  split at h
  · cases h
  · rename_i p hp
    obtain ⟨p', hc, he⟩ := Option.map_eq_some_iff.1 h
    exact ⟨p, p', (find_pid hp).1, (find_pid hp).2, hc, he.symm⟩

/-- A status is that of a child, which is reaped if it has terminated. -/
theorem waitpid_cases {status : WaitStatus} (h : waitpid procs pid = some (status, procs')) :
    ∃ p ∈ procs, p.pid = pid ∧
      ((∃ sig, status = .stopped sig ∧ p.state = .stopped sig false ∧ procs' =
          procs.map fun q => if q.pid = pid then { q with state := .stopped sig true } else q) ∨
        ∃ st, status = .terminated st ∧ p.state = .zombie st ∧
          procs' = procs.filter fun q => q.pid ≠ pid) := by
  unfold waitpid at h
  split at h
  · cases h
  · rename_i p hp
    refine ⟨p, (find_pid hp).1, (find_pid hp).2, ?_⟩
    unfold Proc.waitStatus at h
    cases hst : p.state with
    | running =>
      rw [hst] at h
      cases h
    | stopped sig reported =>
      rw [hst] at h
      cases reported <;> cases h
      exact Or.inl ⟨sig, rfl, rfl, rfl⟩
    | zombie st =>
      rw [hst] at h
      cases h
      exact Or.inr ⟨st, rfl, rfl, rfl⟩

/-- What `waitpid` leaves of the children that have something to report. -/
theorem waitpid_unreported {status : WaitStatus} (hw : waitpid procs pid = some (status, procs'))
    {p : Proc} (hp : p ∈ procs') (hs : p.waitStatus.isSome = true) : p ∈ procs := by
  obtain ⟨q, -, -, ⟨sig, -, -, rfl⟩ | ⟨st, -, -, rfl⟩⟩ := waitpid_cases hw
  · obtain ⟨r, hr, rfl⟩ := List.mem_map.1 hp
    split at hs
    · cases hs
    · rename_i hne
      rw [if_neg hne]
      exact hr
  · exact List.mem_of_mem_filter hp

end Cush
