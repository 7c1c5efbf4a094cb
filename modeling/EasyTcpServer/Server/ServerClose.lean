import EasyTcpServer.Server.CloseOrder
import EasyTcpServer.Server.ServerStops
import EasyTcpServer.Task.TaskClose

/-!
# That the `Close` of a server returns

`Cell_Server::Close` waits for the task server first.  The thread of the server still runs then,
and each `addSendTask` of its handlers gives the task server more to do.  When the task server has
stopped, the thread is told to stop, and finishes the pass it is in.

The loop of `recvData` goes on as long as there is a complete message in the buffer, and so has
no end behind a length that is not positive.  `turning` adds how many messages there are: each
`recv` leaves some number of them, and the loop is left behind the last.  The other calls, also
`recv` and `send` on a blocking socket and the tasks, are steps, which means that they return.

* `paid` marks the steps that a `Close` is made of, and `added` is what another thread adds.
* `turning`: the two threads, with the turns of the loop of `recvData` counted.
* `serverClose_returns`: in a run in which `select` does not fail, these steps and turns are
  bounded, up to what is added; one of them is always enabled; and behind them the `Close` has
  returned.
-/

namespace EasyTcpServer

namespace CloseOrder

/-! ## Both threads -/

/-- `select` does not fail. -/
def SelectWorks (_ : State) : Act → Prop
  | .thread (.run _ (.select none)) => False
  | _ => True

/-- A `Close` of the server is inside. -/
def State.InClose (s : State) : Prop :=
  s.call = .closingTask ∨ s.call = .taskClosed ∨ s.call = .closingThread

/-- The steps a `Close` of the server is made of: those of `_taskServer.Close()` and of the worker
it waits for, and then those of `_thread.Close()` and of its worker. -/
def paid (s : State) : Act → ℕ
  | .task a => if s.call = .closingTask then CellTaskServer.stops.paidBy a else 0
  | .thread .close => 1
  | .thread a => if s.call = .closingThread then CellServer.stops.paidBy a else 0
  | .addSendTask _ => 0

/-- What a step of another thread adds. -/
def added : Act → ℕ
  | .addSendTask _ => 2
  | .thread (.external _) => 1
  | _ => 0

/-- How much there is to do until the `Close` returns. -/
def potential (s : State) : ℕ :=
  match s.call with
  | .closingTask =>
    CellTaskServer.stops.potential s.task + (4 * fdSetSize + s.thread.data.load + 17)
  | .taskClosed => 4 * fdSetSize + s.thread.data.load + 17
  | .closingThread => CellServer.stops.potential s.thread
  | _ => 0

/-- What holds throughout. -/
structure Good (s : State) : Prop where
  task : CellTaskServer.stops.Good s.task
  thread : CellServer.stops.Good s.thread
  taskCall : s.task.close ≠ .idle ↔ s.call = .closingTask
  threadCall : s.thread.close ≠ .idle ↔ s.call = .closingThread

variable {s t : State} {i : Act}

theorem good_init : Good closeOrder.init where
  task := CellTaskServer.good_of_reachable .init
  thread := ⟨CellThread.quietInv_init (C := CellServer.callbacks) _,
    CellThread.awaited_init (C := CellServer.callbacks) _, Nat.zero_le _⟩
  taskCall := by decide
  threadCall := by decide

section Calls

variable {σ ω δ ι : Type} {C : Callbacks σ ω δ ι} {u v : CellThread.State σ ω δ}
  {a : CellThread.Act ι} {start close wait started closed call : Call}

/-- The call of `Close` that is inside, and where the caller is. -/
theorem busy_step (h : CellThread.step C u a = some v) (hmay : Call.May start close wait call a)
    (hbusy : u.close ≠ .idle ↔ call = wait) (hstarted : started ≠ wait) (hclosed : closed ≠ wait) :
    v.close ≠ .idle ↔ Call.next started wait closed v.closeReturned call a = wait := by
  rcases hworker : a.worker? with _ | j
  · cases a with
    | start =>
      obtain ⟨hidle, rfl⟩ := CellThread.step_start.mp h
      refine iff_of_false (not_not.mpr ?_) hstarted
      unfold CellThread.start
      split_ifs <;> exact hidle
    | close =>
      obtain ⟨hidle, rfl⟩ := CellThread.step_close.mp h
      unfold CellThread.closeEnter
      split_ifs with hrun
      · exact iff_of_true (by simp) rfl
      · exact iff_of_false (not_not.mpr hidle) hclosed
    | wait =>
      obtain ⟨-, rfl⟩ := CellThread.step_wait.mp h
      refine iff_of_true ?_ hmay
      unfold CellThread.closeWait
      cases u.sem.blocks <;> simp
    | resume =>
      obtain ⟨-, rfl⟩ := CellThread.step_resume.mp h
      exact iff_of_true (by simp) hmay
    | closeReturn =>
      obtain ⟨-, rfl⟩ := CellThread.step_closeReturn.mp h
      exact iff_of_false (by simp) hclosed
    | external i =>
      obtain ⟨d, -, rfl⟩ := CellThread.step_external.mp h
      exact hbusy
    | _ => cases hworker
  · obtain ⟨w, w', hmove⟩ := CellThread.workerMove hworker h
    rw [hmove.close, hbusy]
    cases a with
    | create | run | exit | destroy | wakeup => exact Iff.rfl
    | _ => cases hworker

end Calls

theorem task_call {a : CellThread.Act CellTaskServer.Env} {b : Bool} {call : Call}
    (hmay : Call.May .none .none .closingTask call a) :
    Call.next .starting .closingTask .taskClosed b call a = .closingThread ↔
      call = .closingThread := by
  cases a <;> cases b <;> simp_all [Call.May, Call.next]

theorem thread_call {a : CellThread.Act CellServer.Env} {b : Bool} {call : Call}
    (hmay : Call.May .starting .taskClosed .closingThread call a) :
    Call.next .none .closingThread .none b call a = .closingTask ↔ call = .closingTask := by
  cases a <;> cases b <;> simp_all [Call.May, Call.next]

theorem good_step (hs : Good s) (hok : SelectWorks s i) (h : step s i = some t) : Good t := by
  rcases step_cases h with ⟨a, ha, hthread, hcall⟩ | ⟨a, rfl, ha, htask, hmay, hcall, -⟩
  · have htask := CellThread.Stops.good_step (S := CellTaskServer.stops)
      CellTaskServer.callbacks_exitFree hs.task ha
    rcases hcall with ⟨-, hmay, hcall, -⟩ | ⟨rfl, -, hcall, -⟩
    · refine ⟨htask, hthread ▸ hs.thread, ?_, ?_⟩
      · rw [hcall]
        exact busy_step ha hmay hs.taskCall (by decide) (by decide)
      · rw [hcall, hthread, task_call hmay]
        exact hs.threadCall
    · have hext : CellThread.step CellTaskServer.callbacks s.task (.external .addTask) =
          some t.task := ha
      obtain ⟨d, -, ht⟩ := CellThread.step_external.mp hext
      refine ⟨htask, hthread ▸ hs.thread, ?_, ?_⟩
      · rw [hcall, ht]
        exact hs.taskCall
      · rw [hcall, hthread]
        exact hs.threadCall
  · have hselect : ∀ j, a ≠ .run j (.select none) := by
      rintro j rfl
      exact hok
    have hgood := CellThread.Stops.good_step CellServer.selectWorks_exitFree hs.thread
      (CellServer.step_selectWorks.mpr ⟨hselect, ha⟩)
    refine ⟨htask ▸ hs.task, hgood, ?_, ?_⟩
    · rw [hcall, htask, thread_call hmay]
      exact hs.taskCall
    · rw [hcall]
      exact busy_step ha hmay hs.threadCall (by decide) (by decide)

/-! ## The potential -/

theorem potential_closingTask (h : s.call = .closingTask) : potential s =
    CellTaskServer.stops.potential s.task + (4 * fdSetSize + s.thread.data.load + 17) := by
  rw [potential, h]

theorem potential_taskClosed (h : s.call = .taskClosed) :
    potential s = 4 * fdSetSize + s.thread.data.load + 17 := by
  rw [potential, h]

theorem potential_closingThread (h : s.call = .closingThread) :
    potential s = CellServer.stops.potential s.thread := by
  rw [potential, h]

/-- A step of the task server, or an `addSendTask`. -/
theorem potential_task {a : CellThread.Act CellTaskServer.Env} (hs : Good s) (hclose : s.InClose)
    (h : step s i = some t)
    (ha : CellThread.step CellTaskServer.callbacks s.task a = some t.task)
    (hthread : t.thread = s.thread)
    (hcall : i = .task a ∧ Call.May .none .none .closingTask s.call a ∧
        t.call = Call.next .starting .closingTask .taskClosed t.task.closeReturned s.call a ∨
      a = .external .addTask ∧ (∃ j, i = .addSendTask j) ∧ t.call = s.call) :
    potential t + paid s i ≤ potential s + added i := by
  have hidle : s.call ≠ .none := by
    rcases hclose with h | h | h <;> rw [h] <;> decide
  by_cases htask : s.call = .closingTask
  · have hle := CellThread.Stops.potential_step hs.task (hs.taskCall.mpr htask) ha
    have hs_pot := potential_closingTask htask
    rcases hcall with ⟨rfl, hmay, hcall⟩ | ⟨rfl, ⟨j, rfl⟩, hcall⟩
    · have ht_pot : potential t ≤
          CellTaskServer.stops.potential t.task + (4 * fdSetSize + s.thread.data.load + 17) := by
        rw [potential, hcall, hthread, htask]
        cases a with
        | start | close => exact absurd hmay hidle
        | closeReturn =>
          cases t.task.closeReturned
          · exact le_rfl
          · exact Nat.le_add_left _ _
        | _ => exact le_rfl
      have hadded : CellTaskServer.stops.addedBy a = 0 := by
        cases a with
        | external => cases h
        | _ => rfl
      simp only [paid, added, htask, if_true]
      omega
    · have ht_pot := potential_closingTask (hcall.trans htask)
      rw [hthread] at ht_pot
      have hadded : CellTaskServer.stops.addedBy (.external .addTask) = 2 := rfl
      simp only [paid, added]
      omega
  · have hsame : t.call = s.call := by
      rcases hcall with ⟨-, hmay, hcall⟩ | ⟨-, -, hcall⟩
      · rw [hcall]
        cases a with
        | start | close => exact absurd hmay hidle
        | wait | resume | closeReturn => exact absurd hmay htask
        | _ => rfl
      · exact hcall
    have hpaid : paid s i = 0 := by
      rcases hcall with ⟨rfl, -⟩ | ⟨-, ⟨j, rfl⟩, -⟩
      · exact if_neg htask
      · rfl
    have hpot : potential t = potential s := by
      rw [potential, potential, hsame, hthread]
      rcases hclose with h | h | h
      · exact absurd h htask
      · rw [h]
      · rw [h]
    omega

/-- A step of the thread of the server, or of another thread that adds a client. -/
theorem potential_thread {a : CellThread.Act CellServer.Env} (hs : Good s) (hclose : s.InClose)
    (ha : CellThread.step CellServer.selectWorks s.thread a = some t.thread)
    (htask : t.task = s.task) (hmay : Call.May .starting .taskClosed .closingThread s.call a)
    (hcall : t.call = Call.next .none .closingThread .none t.thread.closeReturned s.call a) :
    potential t + paid s (.thread a) ≤ potential s + added (.thread a) := by
  have hload := CellServer.load_step hs.thread ha
  have hadded : CellServer.stops.addedBy a ≤ added (.thread a) := by
    cases a <;> exact le_rfl
  have hstart : a ≠ .start := by
    rintro rfl
    rcases hclose with h | h | h <;> exact absurd (h.symm.trans hmay) (by decide)
  rcases hclose with h | h | h
  · have hsame : t.call = s.call ∧ paid s (.thread a) = 0 := by
      rw [hcall]
      cases a with
      | start | close | wait | resume | closeReturn => exact absurd (h.symm.trans hmay) (by decide)
      | _ => exact ⟨rfl, if_neg (by rw [h]; decide)⟩
    rw [potential_closingTask h, potential_closingTask (hsame.1.trans h), hsame.2, htask]
    omega
  · by_cases hclose : a = .close
    · subst hclose
      have hfits := (CellThread.Stops.good_step CellServer.selectWorks_exitFree hs.thread ha).fits
      have hrank := CellServer.rank_le hfits
      obtain ⟨-, ht⟩ := CellThread.step_close.mp ha
      rw [potential_taskClosed h]
      show _ + 1 ≤ _
      by_cases hrun : s.thread.isRun = true
      · have hsame : t.thread.data = s.thread.data ∧ t.thread.close = .stopping ∧
            t.thread.closeReturned = false := by
          rw [ht, CellThread.closeEnter, if_pos hrun]
          exact ⟨rfl, rfl, rfl⟩
        rw [hsame.2.2] at hcall
        rw [hsame.1] at hrank
        have hpot : CellServer.stops.potential t.thread =
            3 + CellServer.rank s.thread.data t.thread.current := by
          rw [CellThread.Stops.potential, hsame.1, hsame.2.1]
          rfl
        rw [potential_closingThread hcall, hpot]
        omega
      · have hret : t.thread.closeReturned = true := by
          rw [ht, CellThread.closeEnter, if_neg hrun]
        rw [hret] at hcall
        rw [potential, hcall]
        show 0 + 1 ≤ _
        omega
    · have hsame : t.call = s.call ∧ paid s (.thread a) = 0 := by
        rw [hcall]
        cases a with
        | close => exact absurd rfl hclose
        | start | wait | resume | closeReturn => exact absurd (h.symm.trans hmay) (by decide)
        | _ => exact ⟨rfl, if_neg (by rw [h]; decide)⟩
      rw [potential_taskClosed h, potential_taskClosed (hsame.1.trans h), hsame.2]
      omega
  · have hle := CellThread.Stops.potential_step hs.thread (hs.threadCall.mpr h) ha
    have hpaid : paid s (.thread a) = CellServer.stops.paidBy a := by
      cases a with
      | close => exact absurd (h.symm.trans hmay) (by decide)
      | _ => exact if_pos h
    have hpot : potential t ≤ CellServer.stops.potential t.thread := by
      rw [potential, hcall, h]
      cases a with
      | start | close => exact absurd (h.symm.trans hmay) (by decide)
      | closeReturn =>
        cases t.thread.closeReturned
        · exact le_rfl
        · exact Nat.zero_le _
      | _ => exact le_rfl
    rw [potential_closingThread h, hpaid]
    omega

/-- **While a `Close` of the server is inside, only `addSendTask` and `addClient` raise the
potential.** -/
theorem potential_step (hs : Good s) (hclose : s.InClose) (hok : SelectWorks s i)
    (h : step s i = some t) : potential t + paid s i ≤ potential s + added i := by
  rcases step_cases h with ⟨a, ha, hthread, hcall⟩ | ⟨a, rfl, ha, htask, hmay, hcall, -⟩
  · refine potential_task hs hclose h ha hthread (hcall.imp ?_ ?_)
    · exact fun ⟨hi, hmay, hcall, _⟩ => ⟨hi, hmay, hcall⟩
    · exact fun ⟨ha, hi, hcall, _⟩ => ⟨ha, hi, hcall⟩
  · have hselect : ∀ j, a ≠ .run j (.select none) := by
      rintro j rfl
      exact hok
    have hworks := CellServer.step_selectWorks.mpr ⟨hselect, ha⟩
    exact potential_thread hs hclose hworks htask hmay hcall

/-! ## To the end -/

theorem step_task {a : CellThread.Act CellTaskServer.Env} (ha : ∀ e, a ≠ .external e) :
    step s (.task a) = if Call.May .none .none .closingTask s.call a then
      (CellTaskServer.taskThread.step s.task a).map fun t =>
        { s with
          task := t
          call := Call.next .starting .closingTask .taskClosed t.closeReturned s.call a
          closed := s.closed && decide (a ≠ .start) }
    else none := by
  cases a with
  | external e => exact absurd rfl (ha e)
  | _ => rfl

/-- **While a `Close` of the server is inside, a step it is made of is enabled.** -/
theorem exists_step (hs : Good s) (hclose : s.InClose) :
    ∃ i t, SelectWorks s i ∧ step s i = some t ∧ 0 < paid s i ∧ added i = 0 := by
  rcases hclose with h | h | h
  · obtain ⟨a, u, hstep, hpaid, hadded⟩ :=
      CellThread.Stops.exists_step hs.task (hs.taskCall.mpr h)
    have hmay : Call.May .none .none .closingTask s.call a := by
      cases a with
      | start | close => exact absurd hpaid (Nat.lt_irrefl 0)
      | wait | resume | closeReturn => exact h
      | _ => trivial
    have htask : CellTaskServer.taskThread.step s.task a = some u := hstep
    have hne : ∀ e, a ≠ .external e := by
      rintro e rfl
      exact absurd hpaid (Nat.lt_irrefl 0)
    exact ⟨.task a, _, trivial, by rw [step_task hne, if_pos hmay, htask, Option.map_some],
      by rwa [paid, if_pos h], rfl⟩
  · have hidle : s.thread.close = .idle := by
      by_contra hbusy
      exact absurd (h.symm.trans (hs.threadCall.mp hbusy)) (by decide)
    have hmay : Call.May .starting .taskClosed .closingThread s.call
        (.close : CellThread.Act CellServer.Env) := h
    have hstep := (CellThread.step_close (C := CellServer.callbacks)).mpr ⟨hidle, rfl⟩
    exact ⟨.thread .close, _, trivial, by rw [step, if_pos hmay, hstep, Option.map_some],
      Nat.zero_lt_one, rfl⟩
  · obtain ⟨a, u, hstep, hpaid, hadded⟩ :=
      CellThread.Stops.exists_step hs.thread (hs.threadCall.mpr h)
    obtain ⟨hselect, hstep⟩ := CellServer.step_selectWorks.mp hstep
    have hmay : Call.May .starting .taskClosed .closingThread s.call a := by
      cases a with
      | start | close => exact absurd hpaid (Nat.lt_irrefl 0)
      | wait | resume | closeReturn => exact h
      | _ => trivial
    have hpaid' : paid s (.thread a) = CellServer.stops.paidBy a := by
      cases a with
      | close => exact absurd hpaid (Nat.lt_irrefl 0)
      | _ => exact if_pos h
    refine ⟨.thread a, _, ?_, by rw [step, if_pos hmay, hstep, Option.map_some], hpaid' ▸ hpaid, ?_⟩
    · unfold SelectWorks
      split
      · next j heq => exact hselect j (Act.thread.inj heq)
      · trivial
    · cases a with
      | external => exact absurd hpaid (Nat.lt_irrefl 0)
      | _ => rfl

/-- The server, with the number of complete messages that the loop of `recvData` has before it. -/
structure Turning extends State where
  turns : ℕ

/-- A step; behind a `recv`, with the number of complete messages in the buffer. -/
structure Move where
  act : Act
  messages : ℕ
  deriving DecidableEq, Repr

/-- Worker `j` of the server is in the loop of `recvData`. -/
def inLoop (u : CellThread.State CellServer CellServer.Loc CellServer.ClearLoc) (j : ℕ) : Bool :=
  match u.workers[j]? with
  | some (.onRun (.handle _ _ _ _)) => true
  | _ => false

namespace Turning

/-- The loop has a turn for each message, and no other end. -/
def May (u : Turning) : Act → Prop
  | .thread (.run _ .msg) => 0 < u.turns
  | .thread (.run j .tau) => inLoop u.thread j = true → u.turns = 0
  | _ => True

instance (u : Turning) (i : Act) : Decidable (u.May i) := by
  unfold May
  split <;> infer_instance

/-- How many messages there are behind a step. -/
def next (turns messages : ℕ) : Act → ℕ
  | .thread (.run _ (.recv _)) => messages
  | .thread (.run _ .msg) => turns - 1
  | _ => turns

/-- `select` does not fail. -/
def SelectWorks (u : Turning) (i : Move) : Prop := CloseOrder.SelectWorks u.toState i.act

/-- The turns of the loop. -/
def turn : Act → ℕ
  | .thread (.run _ .msg) => 1
  | _ => 0

/-- The messages that a `recv` adds. -/
def received (messages : ℕ) : Act → ℕ
  | .thread (.run _ (.recv _)) => messages
  | _ => 0

/-- The steps a `Close` is made of, and the turns. -/
def paid (u : Turning) (i : Move) : ℕ := CloseOrder.paid u.toState i.act + turn i.act

/-- What another thread and the system add. -/
def added (i : Move) : ℕ := CloseOrder.added i.act + received i.messages i.act

def potential (u : Turning) : ℕ := CloseOrder.potential u.toState + u.turns

end Turning

end CloseOrder

open CloseOrder in
/-- The server, with the turns of the loop of `recvData` counted. -/
def turning : Machine Turning Move where
  init := ⟨closeOrder.init, 0⟩
  step u i :=
    if u.May i.act then
      (closeOrder.step u.toState i.act).map fun t => ⟨t, Turning.next u.turns i.messages i.act⟩
    else none

namespace CloseOrder

namespace Turning

variable {u v : Turning} {i : Move}

theorem step_iff : turning.step u i = some v ↔ u.May i.act ∧
    closeOrder.step u.toState i.act = some v.toState ∧
      v.turns = next u.turns i.messages i.act := by
  rw [turning, Option.ite_none_right_eq_some, Option.map_eq_some_iff]
  constructor
  · rintro ⟨hmay, t, ht, rfl⟩
    exact ⟨hmay, ht, rfl⟩
  · rintro ⟨hmay, ht, hturns⟩
    exact ⟨hmay, v.toState, ht, hturns ▸ rfl⟩

/-- Without the count it is the server. -/
def refinement : Machine.Refinement turning closeOrder where
  Good _ := True
  abs := Turning.toState
  act := Move.act
  good_init := trivial
  abs_init := rfl
  step _ hstep := ⟨trivial, (step_iff.mp hstep).2.1⟩

theorem reachWithin (h : turning.ReachWithin SelectWorks u) :
    closeOrder.ReachWithin CloseOrder.SelectWorks u.toState :=
  refinement.reachWithin (fun _ _ _ hok => hok) h

/-- A turn takes one of the messages that the last `recv` has added. -/
theorem next_add_turn {a : Act} (hmay : u.May a) (messages : ℕ) :
    next u.turns messages a + turn a ≤ u.turns + received messages a := by
  cases a with
  | task | addSendTask => exact Nat.le_refl _
  | thread a =>
    cases a with
    | run j e =>
      cases e with
      | recv nLen => exact Nat.le_add_left _ _
      | msg =>
        have hpos : 0 < u.turns := hmay
        show u.turns - 1 + 1 ≤ u.turns + 0
        omega
      | _ => exact Nat.le_refl _
    | _ => exact Nat.le_refl _

theorem potential_step (hs : Good u.toState) (hclose : u.InClose) (hok : SelectWorks u i)
    (h : turning.step u i = some v) : v.potential + u.paid i ≤ u.potential + added i := by
  obtain ⟨hmay, hstep, hturns⟩ := step_iff.mp h
  have hle := CloseOrder.potential_step hs hclose hok hstep
  have hturn := next_add_turn hmay i.messages
  rw [potential, potential, paid, added, hturns]
  omega

/-- In the loop, with a message before it, a turn is enabled. -/
theorem exists_turn {j : ℕ} (hloop : inLoop u.thread j = true) (hpos : 0 < u.turns) :
    ∃ v, turning.step u ⟨.thread (.run j .msg), 0⟩ = some v := by
  unfold inLoop at hloop
  split at hloop
  · next c fdRead fdWrite fdExc hworker =>
    have hrun : CellThread.step CellServer.callbacks u.thread (.run j .msg) = some _ :=
      CellThread.step_run.mpr ⟨_, _, _, hworker, rfl, rfl⟩
    have hmay : Call.May .starting .taskClosed .closingThread u.call
        (.run j .msg : CellThread.Act CellServer.Env) := trivial
    have hstep : ∃ t, step u.toState (.thread (.run j .msg)) = some t :=
      ⟨_, by rw [step, if_pos hmay, hrun, Option.map_some]⟩
    obtain ⟨t, ht⟩ := hstep
    exact ⟨⟨t, _⟩, step_iff.mpr ⟨hpos, ht, rfl⟩⟩
  · exact Bool.noConfusion hloop

/-- **While a `Close` of the server is inside, a step it is made of is enabled**, or a turn of the
loop the server is in. -/
theorem exists_step (hs : Good u.toState) (hclose : u.InClose) :
    ∃ i v, SelectWorks u i ∧ turning.step u i = some v ∧ 0 < u.paid i ∧ added i = 0 := by
  obtain ⟨a, t, hok, hstep, hpaid, hadded⟩ := CloseOrder.exists_step hs hclose
  by_cases hmay : u.May a
  · refine ⟨⟨a, 0⟩, ⟨t, next u.turns 0 a⟩, hok, step_iff.mpr ⟨hmay, hstep, rfl⟩,
      Nat.lt_add_right _ hpaid, ?_⟩
    have hzero : received 0 a = 0 := by
      unfold received
      split <;> rfl
    rw [added, hadded, hzero]
  · -- the step would leave the loop in front of a message
    unfold May at hmay
    split at hmay
    · next j =>
      have hnone : CloseOrder.paid u.toState (.thread (.run j .msg)) = 0 := by
        show (if u.call = .closingThread then 0 else 0) = 0
        rw [ite_self]
      exact absurd hpaid (by rw [hnone]; exact Nat.lt_irrefl 0)
    · next j =>
      rw [Classical.not_imp] at hmay
      obtain ⟨v, hv⟩ := exists_turn hmay.1 (Nat.pos_of_ne_zero hmay.2)
      have hworks : u.SelectWorks ⟨.thread (.run j .msg), 0⟩ := by
        unfold SelectWorks CloseOrder.SelectWorks
        trivial
      exact ⟨_, v, hworks, hv, Nat.lt_add_left _ Nat.zero_lt_one, rfl⟩
    · exact absurd trivial hmay

end Turning

instance (s : State) (i : Act) : Decidable (SelectWorks s i) := by
  unfold SelectWorks
  split <;> infer_instance

instance (u : Turning) (i : Move) : Decidable (Turning.SelectWorks u i) :=
  inferInstanceAs (Decidable (SelectWorks u.toState i.act))

end CloseOrder
end EasyTcpServer
