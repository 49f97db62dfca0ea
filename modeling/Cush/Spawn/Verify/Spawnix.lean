import Cush.Spawn.Run
import Cush.Spawn.Verify.Child

/-!
# The contract of `posix_spawnp`

Whatever the kernel answers, `__spawnix` returns with the signal mask of the caller as it was. If it
returns 0 there is a new child, which has become the program with what the attributes and the file
actions ask for or has been killed before; otherwise none is left and `*pid` has not been touched.
-/

namespace Cush.Spawni

open Program

variable {a : Answers} {fa : Option (List SpawnAction)} {attrp : Option SpawnAttr}
  {argv : List Word} {c : Caller}

/-! ## The count of the arguments -/

theorem argcLoop_eq_none {limit argc : Nat} (h : argc < limit) :
    argcLoop limit argc argv = none ↔ limit ≤ argc + argv.length := by
  induction argv generalizing argc with
  | nil => simpa [argcLoop] using h
  | cons w argv ih =>
    unfold argcLoop
    by_cases hl : argc + 1 = limit
    · simp [hl]
      omega
    · rw [if_neg hl, ih (by omega), List.length_cons]
      omega

/-! ## The child of a caller -/

/-- Who may have the terminal when the call returns. -/
def mayHave (attr : SpawnAttr) (c : Caller) (newPid p : Pid) : Prop :=
  p = c.ttyPgrp ∨ attr.has POSIX_SPAWN_TCSETPGROUP = true ∧
    p = ((c.childTask newPid).session attr).group attr

theorem world_setting (attr : SpawnAttr) (c : Caller) (newPid : Pid) :
    (c.world newPid).Setting (mayHave attr c newPid) where
  masked := masked_block c.task.mask rfl
  log _ ht := absurd ht List.not_mem_nil
  err := rfl
  tty := .inl rfl

/-- How the child of a caller ends. -/
theorem child_ends (a : Answers) (args : SpawnArgs) (c : Caller) (newPid : Pid) :
    ∃ stop w, spawniChild a args (c.world newPid) = .error stop w ∧
      ChildEnds a args (mayHave args.attr c newPid) (c.childTask newPid) c.ttyPgrp stop w := by
  have hleads :=
    spawniChild_leads (a := a) (world_setting args.attr c newPid) fun h => .inr ⟨h, rfl⟩
  unfold Leads at hleads
  split at hleads
  · exact hleads.elim
  · exact ⟨_, _, ‹_›, hleads⟩

/-- **No handler runs in the child.** It shares the memory of the caller, but at none of its calls
is there a signal that it would handle and does not block. It ends in `exec`, in `_exit`, or is
killed: `SIGTTOU` never stops it where it sets the terminal. -/
theorem spawniChild_quiet (a : Answers) (args : SpawnArgs) (c : Caller) (newPid : Pid) :
    ∃ stop w, spawniChild a args (c.world newPid) = .error stop w ∧
      (stop = .execed ∨ stop = .exited SPAWN_ERROR ∨ ∃ sig, stop = .killed sig) ∧
      ∀ t ∈ w.log, ∀ sig, 1 ≤ sig → sig < NSIG → t.mask.blocked sig = false →
        ∀ f, t.actions.get sig ≠ .handler f := by
  obtain ⟨stop, w, hw, hends⟩ := child_ends a args c newPid
  refine ⟨stop, w, hw, ?_, hends.log⟩
  rcases hends.ends with ⟨he, -⟩ | ⟨he, -⟩ | hkilled
  · exact .inl he
  · exact .inr (.inl he)
  · exact .inr (.inr hkilled)

/-! ## The caller -/

/-- What is promised to the caller of `__spawnix`. -/
structure Spawned.Kept (a : Answers) (args : SpawnArgs) (c : Caller) (r : Spawned) : Prop where
  task : r.caller.task = c.task
  failed : r.ec ≠ 0 → r.caller.pid = c.pid ∧ r.child = none ∧
    (r.caller.ttyPgrp = c.ttyPgrp ∨ ∃ newPid, a.clone = .ok newPid ∧
      mayHave args.attr c newPid r.caller.ttyPgrp)
  started : r.ec = 0 → ∃ newPid t st, a.clone = .ok newPid ∧ r.caller.pid = newPid ∧
    r.child = some (t, st) ∧
    ((st = .running ∧ ∃ t', IsSetUp a args (c.childTask newPid) c.ttyPgrp t' r.caller.ttyPgrp ∧
        t = t'.started args) ∨
      ∃ sig, st = .zombie (.signaled sig))

theorem ofSet_blocked (m : SignalMask) : SignalMask.ofSet m.blocked = m := by
  obtain ⟨blocked, hr⟩ := m
  have hsame : (fun sig => blocked sig && !isReserved sig) = blocked := by
    funext sig
    cases h : isReserved sig with
    | false => simp
    | true => simp [hr sig h]
  simp only [SignalMask.ofSet, hsame]

/-- An array of arguments that the kernel would refuse for its length is refused at once. -/
theorem spawnix_tooBig (h : INT_MAX - 1 ≤ argv.length) :
    spawnix a fa attrp argv c =
      some { ec := E2BIG, caller := { c with errno := E2BIG }, child := none } := by
  have hnone := (argcLoop_eq_none (by decide : 0 < INT_MAX - 1)).2 (Nat.zero_add argv.length ▸ h)
  unfold spawnix
  rw [hnone]

theorem spawnix_kept (a : Answers) (fa : Option (List SpawnAction)) (attrp : Option SpawnAttr)
    (argv : List Word) (c : Caller) :
    ∃ r, spawnix a fa attrp argv c = some r ∧
      r.Kept a { oldmask := c.task.mask, fa, attr := attrp.getD .init } c := by
  unfold spawnix
  cases argcLoop (INT_MAX - 1) 0 argv with
  | none => exact ⟨_, rfl, rfl, fun _ => ⟨rfl, rfl, .inl rfl⟩, fun h => nomatch h⟩
  | some argc =>
    dsimp only
    cases hmmap : a.mmap with
    | some e =>
      refine ⟨_, rfl, rfl, fun _ => ⟨rfl, rfl, .inl rfl⟩, fun h => ?_⟩
      exact absurd (h ▸ hmmap) a.mmap_ne
    | none =>
      dsimp only
      rw [ofSet_blocked]
      cases hclone : a.clone with
      | error e => exact ⟨_, rfl, rfl, fun _ => ⟨rfl, rfl, .inl rfl⟩, fun h => nomatch h⟩
      | ok newPid =>
        obtain ⟨stop, w, hw, hends⟩ :=
          child_ends a { oldmask := c.task.mask, fa, attr := attrp.getD .init } c newPid
        dsimp only
        rw [hw]
        have htty := hends.tty
        rcases hends.ends with ⟨rfl, herr, t', hset, ht'⟩ | ⟨rfl, herr⟩ | ⟨sig, rfl⟩
        · refine ⟨_, rfl, rfl, fun h => absurd herr h, fun _ => ?_⟩
          exact ⟨newPid, w.task, .running, hclone, if_pos herr, rfl, .inl ⟨rfl, t', hset, ht'⟩⟩
        · refine ⟨_, rfl, rfl, fun _ => ⟨if_neg herr, ?_, .inr ⟨newPid, hclone, htty⟩⟩, fun h =>
            absurd h herr⟩
          simp [leftOf, Nat.pos_of_ne_zero herr]
        · by_cases herr : w.err = 0
          · refine ⟨_, rfl, rfl, fun h => absurd herr h, fun _ => ?_⟩
            refine
              ⟨newPid, w.task, .zombie (.signaled sig), hclone, if_pos herr, ?_, .inr ⟨sig, rfl⟩⟩
            simp [leftOf, herr]
          · refine ⟨_, rfl, rfl, fun _ => ⟨if_neg herr, ?_, .inr ⟨newPid, hclone, htty⟩⟩, fun h =>
              absurd h herr⟩
            simp [leftOf, Nat.pos_of_ne_zero herr]

/-- **The contract of `posix_spawnp`**: whatever the kernel answers, it returns, and keeps what
`Kept` promises; an array of arguments that is too long is refused before a child is made. -/
theorem spawnix_returns (a : Answers) (fa : Option (List SpawnAction)) (attrp : Option SpawnAttr)
    (argv : List Word) (c : Caller) :
    ∃ r, spawnix a fa attrp argv c = some r ∧
      r.Kept a { oldmask := c.task.mask, fa, attr := attrp.getD .init } c ∧
      (INT_MAX - 1 ≤ argv.length → r.ec = E2BIG ∧ r.child = none) := by
  obtain ⟨r, hr, hkept⟩ := spawnix_kept a fa attrp argv c
  refine ⟨r, hr, hkept, fun h => ?_⟩
  rw [spawnix_tooBig h] at hr
  cases hr
  exact ⟨rfl, rfl⟩

end Cush.Spawni
