import Cush.Shell.Verify.Arguments

/-!
# The numbers of the history list

The `history` builtin numbers the entries from 0, and history expansion resolves `!n` with a base of
1, so that `!n` stands for the entry printed before the one with the number `n`. Where no entry
has the number, the text of the error is recorded and executed: `main` does not look at the result
of `history_expand`.
-/

namespace Cush

/-- A line, as it is entered or recorded. -/
abbrev Line := List Char

/-! ## The history library -/

/-- `history_base` -/
def historyBase : Int := 1

/-- `history_get`, for a list that is not stifled. -/
def historyGet (history : List Line) (offset : Int) : Option Line :=
  let localIndex := offset - historyBase
  if localIndex < 0 then none else history[localIndex.toNat]?

/-- `!n` -/
def eventLine (n : Nat) : Line :=
  '!' :: Nat.toDigits 10 n

/-- How `history_expand` resolves `!n`: its second result is the expansion. -/
def ResolvesEvents (historyExpand : List Line → Line → Int × Line) : Prop :=
  ∀ history (n : Nat) line, historyGet history n = some line →
    (historyExpand history (eventLine n)).2 = line

theorem historyGet_succ (history : List Line) (n : Nat) :
    historyGet history (n + 1 : Nat) = history[n]? := by
  have hindex : ((n + 1 : Nat) : Int) - historyBase = n := by
    unfold historyBase
    omega
  unfold historyGet
  dsimp only
  rw [hindex, if_neg (by omega), Int.toNat_natCast]

namespace State

variable {s t u : State} {e : Event} {ok : State → Event → Bool}
  {historyExpand : List Line → Line → Int × Line}

/-- The expansion of a line that is entered. -/
def expansion (historyExpand : List Line → Line → Int × Line) (s : State) (cmdline : Line) : Line :=
  (historyExpand s.history cmdline).2

/-- Entering `!n` expands to, records and executes the given line. -/
structure Recalls (historyExpand : List Line → Line → Int × Line) (s : State) (n : Nat)
    (line : Line) : Prop where
  expanded : s.expansion historyExpand (eventLine n) = line
  entered : ∃ t, step s (.line (s.expansion historyExpand (eventLine n))) = some t ∧
    t = s.readLine line ∧ t.history = s.history ++ [line]

/-! ## What is printed -/

/-- The lines that `history` prints. -/
theorem history_step {args : List Word} (h : s.Calls .history args) (hs : step s .main = some t) :
    t.out = s.out ++ s.history.zipIdx.map (fun (line, i) => .history i line) ∧
      t.history = s.history := by
  obtain ⟨hp, -, node, rest, cmd, cmds, name, hl, hc, ha, hb⟩ := h
  rw [step_dispatch hp hs, dispatch_command hl hc ha]
  unfold handleBuiltin
  rw [hb]
  exact ⟨rfl, rfl⟩

theorem mem_printed {n : Nat} {line : Line} {history : List Line} :
    Output.history n line ∈ history.zipIdx.map (fun (line, i) => .history i line) ↔
      history[n]? = some line := by
  rw [List.mem_map]
  constructor
  · rintro ⟨⟨line', i⟩, hmem, he⟩
    cases he
    exact List.mk_mem_zipIdx_iff_getElem?.1 hmem
  · exact fun h => ⟨(line, n), List.mk_mem_zipIdx_iff_getElem?.2 h, rfl⟩

/-! ## What is recorded -/

theorem readLine_history (s : State) (e : Line) : (s.readLine e).history = s.history ++ [e] := by
  unfold readLine
  split
  rename_i r scanner _
  dsimp only
  split
  · rfl
  · rfl
  · rfl
  · rfl
  · split <;> rfl

/-- Only a line that is entered is recorded. -/
theorem history_move (hm : Move s e t) (hl : t.pc.live = true) (he : ∀ line, e ≠ .line line) :
    t.history = s.history := by
  cases hm with
  | abort => cases hl
  | line | lineEmpty => exact absurd rfl (he _)
  | _ => rfl

theorem Path.history {l : List (State × Event)} (hp : Path ok s l t) (hl : t.pc.live = true)
    (hn : ∀ x ∈ l, ∀ line, x.2 ≠ .line line) : t.history = s.history := by
  induction hp with
  | nil => rfl
  | @snoc l u v e hpath hok hs ih =>
    have hold := ih (step_move hs).1 fun x hx => hn x (List.mem_append_left _ hx)
    have hlast := hn (u, e) (List.mem_append_right _ (List.mem_singleton_self _))
    exact (history_move (step_move hs).2 hl hlast).trans hold

/-- A line that is entered at the prompt. -/
theorem line_step (hp : s.pc = .readline) (hh : s.handler = none) (e : Line) :
    step s (.line e) = some (s.readLine e) := by
  unfold step
  rw [hp, hh]
  unfold answerStep
  rw [hp]
  rfl

theorem recalls_iff (hp : s.pc = .readline) (hh : s.handler = none) (n : Nat) (line : Line) :
    Recalls historyExpand s n line ↔ s.expansion historyExpand (eventLine n) = line := by
  refine ⟨fun h => h.expanded, fun h => ⟨h, _, line_step hp hh _, ?_, ?_⟩⟩
  · rw [h]
  · rw [h, readLine_history]

/-! ## Main result -/

/-- The line of an entry is that of the entry before it; the first one is the text that is left
where there is no such event. -/
def RepeatsPrevious (historyExpand : List Line → Line → Int × Line) (history : List Line) (n : Nat)
    (line : Line) : Prop :=
  if n = 0 then (historyExpand history (eventLine 0)).2 = line
  else history[n - 1]? = some line

/-- **The numbers of the history list.** Entering `!n` at the next prompt recalls the line that the
`history` builtin has printed with the number `n` if and only if the line is that of the entry
before. -/
theorem historyNumbers_run (hexp : ResolvesEvents historyExpand) {args : List Word}
    (hc : s.Calls .history args) (hs : step s .main = some t) {l : List (State × Event)}
    (hp : Path ok t l u) (hn : ∀ x ∈ l, ∀ line, x.2 ≠ .line line) (hu : u.pc = .readline)
    (hh : u.handler = none) {n : Nat} {line : Line}
    (hout : .history n line ∈ t.out.drop s.out.length) :
    Recalls historyExpand u n line ↔ RepeatsPrevious historyExpand u.history n line := by
  obtain ⟨hprint, hhist⟩ := history_step hc hs
  have hlist : u.history = s.history := (hp.history (by rw [hu]; rfl) hn).trans hhist
  rw [hprint, List.drop_left] at hout
  have hget := mem_printed.1 hout
  rw [← hlist] at hget
  rw [recalls_iff hu hh, expansion, RepeatsPrevious]
  cases n with
  | zero => exact Iff.rfl
  | succ n =>
    have hlt := (List.getElem?_eq_some_iff.1 hget).1
    obtain ⟨prev, hprev⟩ : ∃ prev, u.history[n]? = some prev :=
      ⟨_, List.getElem?_eq_getElem (by omega)⟩
    have hevent := hexp u.history (n + 1) prev ((historyGet_succ u.history n).trans hprev)
    rw [hevent, if_neg (Nat.succ_ne_zero n), Nat.add_sub_cancel, hprev, Option.some.injEq]

/-! ## Runs with a history list -/

/-- History expansion of `!n`, and of lines without a `!`. -/
def expandEvent (history : List Line) : Line → Int × Line
  | '!' :: text =>
    if text.all Char.isDigit then
      match historyGet history (Nat.ofDigitChars 10 text 0 : Nat) with
      | some line => (1, line)
      | none => (-1, ('!' :: text) ++ ": event not found".toList)
    else (0, '!' :: text)
  | line => (0, line)

theorem expandEvent_resolves : ResolvesEvents expandEvent := by
  intro history n line hget
  have hdigits : (Nat.toDigits 10 n).all Char.isDigit = true :=
    List.all_eq_true.2 fun c hc => Nat.isDigit_of_mem_toDigits (by decide) (by decide) hc
  rw [eventLine, expandEvent, if_pos hdigits, Nat.ofDigitChars_ten_toDigits, hget]

/-- A line with a builtin, up to the next prompt. -/
def enterBuiltin (line : Line) : List Event :=
  .line line :: List.replicate 5 .main

/-- `jobs` twice, or once, and `history`, up to its dispatch. -/
def repeatedJobs : List Event :=
  enterBuiltin ['j', 'o', 'b', 's'] ++ enterBuiltin ['j', 'o', 'b', 's'] ++
    [.line ['h', 'i', 's', 't', 'o', 'r', 'y']]

def jobsOnce : List Event :=
  enterBuiltin ['j', 'o', 'b', 's'] ++ [.line ['h', 'i', 's', 't', 'o', 'r', 'y']]

/-- `jobs` has been entered twice, and `!1` stands for the first time. -/
theorem historyNumbers_run_repeated : ∃ s t u l,
    Lts.exec step (fun _ _ => true) (State.init 50 7 .usual) repeatedJobs = some s ∧
    step s .main = some t ∧ Path (fun _ _ => true) t l u ∧
    .history 1 ['j', 'o', 'b', 's'] ∈ t.out.drop s.out.length ∧
    Recalls expandEvent u 1 ['j', 'o', 'b', 's'] := by
  have hcall : (Lts.exec step (fun _ _ => true) (State.init 50 7 .usual) repeatedJobs).map
      (fun s => (s.pc, s.handler, s.line)) = some (.dispatch, none,
        [⟨2, ⟨[⟨[['h', 'i', 's', 't', 'o', 'r', 'y']], false⟩], none, none, false, false⟩⟩]) := by
    decide
  have hrun : ((Lts.exec step (fun _ _ => true) (State.init 50 7 .usual) repeatedJobs).bind fun s =>
      (step s .main).bind fun t =>
        (Lts.exec step (fun _ _ => true) t (List.replicate 3 .main)).map fun u =>
          ((u.pc, u.handler), (t.out.drop s.out.length, u.history))) =
      some ((.readline, none), ([.history 0 ['j', 'o', 'b', 's'], .history 1 ['j', 'o', 'b', 's'],
          .history 2 ['h', 'i', 's', 't', 'o', 'r', 'y']],
        [['j', 'o', 'b', 's'], ['j', 'o', 'b', 's'], ['h', 'i', 's', 't', 'o', 'r', 'y']])) := by
    decide
  obtain ⟨s, hs, hrun⟩ := Option.bind_eq_some_iff.1 hrun
  obtain ⟨t, ht, hrun⟩ := Option.bind_eq_some_iff.1 hrun
  obtain ⟨u, hu, he⟩ := Option.map_eq_some_iff.1 hrun
  rw [hs] at hcall
  obtain ⟨hprompt, he⟩ := Prod.mk.inj he
  obtain ⟨hpc, hh⟩ := Prod.mk.inj hprompt
  obtain ⟨hout, hhist⟩ := Prod.mk.inj he
  have hn : ∀ x ∈ Lts.record step t (List.replicate 3 .main), ∀ line, x.2 ≠ .line line := by
    intro x hx line hline
    rw [List.eq_of_mem_replicate (Lts.mem_record hx)] at hline
    cases hline
  have hmem : .history 1 ['j', 'o', 'b', 's'] ∈ t.out.drop s.out.length := by
    rw [hout]
    decide
  have hiff := historyNumbers_run expandEvent_resolves
    (calls_of_line rfl (Option.some.inj hcall)) ht (Path.record hu) hn hpc hh hmem
  refine ⟨s, t, u, _, hs, ht, Path.record hu, hmem, hiff.2 ?_⟩
  rw [hhist]
  rfl

/-- After `jobs` and `history`, `!1` recalls `jobs`, where `history` has the number 1. -/
theorem historyNumbers_differ : ∃ s t u l, Run (fun _ _ => true) s ∧ s.Calls .history [] ∧
    step s .main = some t ∧ Path (fun _ _ => true) t l u ∧ u.pc = .readline ∧
    .history 1 ['h', 'i', 's', 't', 'o', 'r', 'y'] ∈ t.out.drop s.out.length ∧
    ResolvesEvents expandEvent ∧ ¬ Recalls expandEvent u 1 ['h', 'i', 's', 't', 'o', 'r', 'y'] ∧
    Recalls expandEvent u 1 ['j', 'o', 'b', 's'] := by
  have hcall : (Lts.exec step (fun _ _ => true) (State.init 50 7 .usual) jobsOnce).map
      (fun s => (s.pc, s.handler, s.line)) = some (.dispatch, none,
        [⟨1, ⟨[⟨[['h', 'i', 's', 't', 'o', 'r', 'y']], false⟩], none, none, false, false⟩⟩]) := by
    decide
  have hrun : ((Lts.exec step (fun _ _ => true) (State.init 50 7 .usual) jobsOnce).bind fun s =>
      (step s .main).bind fun t =>
        (Lts.exec step (fun _ _ => true) t (List.replicate 3 .main)).map fun u =>
          ((u.pc, u.handler), (t.out.drop s.out.length, u.expansion expandEvent (eventLine 1)))) =
      some ((.readline, none), ([.history 0 ['j', 'o', 'b', 's'],
        .history 1 ['h', 'i', 's', 't', 'o', 'r', 'y']], ['j', 'o', 'b', 's'])) := by
    decide
  obtain ⟨s, hs, hrun⟩ := Option.bind_eq_some_iff.1 hrun
  obtain ⟨t, ht, hrun⟩ := Option.bind_eq_some_iff.1 hrun
  obtain ⟨u, hu, he⟩ := Option.map_eq_some_iff.1 hrun
  rw [hs] at hcall
  obtain ⟨hprompt, he⟩ := Prod.mk.inj he
  obtain ⟨hpc, hh⟩ := Prod.mk.inj hprompt
  obtain ⟨hout, hexp⟩ := Prod.mk.inj he
  refine ⟨s, t, u, _, Run.exec (by decide) hs, calls_of_line rfl (Option.some.inj hcall), ht,
    Path.record hu, hpc, by rw [hout]; decide, expandEvent_resolves, fun h => ?_,
    (recalls_iff hpc hh _ _).2 hexp⟩
  exact absurd (h.expanded.symm.trans hexp) (by decide)

end State

end Cush
