import EasyTcpServer.Server.CellServer
import EasyTcpServer.Thread.ExitHistory

/-!
# Stopping a server

`Cell_Server::Close` ends in `Cell_Thread::Close`, which is meant to come back when the
thread has finished `ClearClients`.  The thread of a server has a second way to stop: when
`select` fails, `onRun` calls `Exit` and leaves its loop.  The two ways do not go together.

* `Exit` lowers `_isRun`, and a `Close` that finds `_isRun` down does not wait.  It comes
  back while `ClearClients` is under way.  Likewise a `Start` spawns a second worker, and the
  `wakeup` of a worker nobody waits for lets a later `Close` through.
* `Close` keeps the mutex while it waits.  When `select` fails then, `Exit` waits for the
  mutex and `Close` waits for the worker, for ever.

`close_is_barrier` and `shutdown_no_deadlock` say when neither can happen.
-/

namespace EasyTcpServer
namespace Shutdown

open CellThread

universe u v w x

/-! ## The barrier -/

/-- **When `Close` is a barrier.**  Whatever the callbacks do: in a run in which `Start` and
`Close` are called only when every worker that has called `Exit` has ended, and a `Close` that
finds `_isRun` up only when none has ever called it, no `Close` returns too early and no two
workers are alive.  Another call of `Start` or `Close`, a `Close` behind the end of `onDestory`
apart, breaks that at once or by the next steps of the `Close`. -/
theorem close_is_barrier {σ : Type u} {ω : Type v} {δ : Type w} {ι : Type x}
    (C : Callbacks σ ω δ ι) (d : σ) :
    (∀ as s, (cellThread C d).recorded.ReachWithin Undisturbed (as, s) →
      s.Barrier ∧ s.Single) ∧
    (∀ as s a t, (cellThread C d).recorded.ReachWithin Undisturbed (as, s) →
      (cellThread C d).step s a = some t → ¬ Undisturbed (as, s) a →
      (a = .close → ¬ s.AllAfter) →
      ∃ bs u, (∀ b ∈ bs, b = .wait ∨ b = .closeReturn) ∧ (cellThread C d).run t bs = some u ∧
        ¬ (u.Barrier ∧ u.Single)) := by
  refine ⟨fun as s hs => ?_, fun as s a t hs hstep hok hafter => ?_⟩
  · have hinv := (historyInv_of_reachWithin hs).inv
    exact ⟨hinv.returned, hinv.single⟩
  · exact violation_of_not_undisturbed (historyInv_of_reachWithin hs) hok hafter hstep d

/-- A client for the runs below. -/
def someClient : ClientPtr := ⟨16, 1, 3⟩

/-- Worker `j` is started, gets a client, and `select` fails. -/
def selectFails (j : ℕ) : List (Act CellServer.Env) :=
  [.start, .create j, .external (.addClient someClient false), .run j .tau, .run j .tau,
    .run j .tau, .run j .tau, .run j (.select none)]

/-- `Exit` gets the mutex, and `onRun` returns. -/
def exitAndReturn (j : ℕ) : List (Act CellServer.Env) := [.exit j, .run j .tau]

/-- `ClearClients`, and the `wakeup` behind it. -/
def clearAndWake (j : ℕ) : List (Act CellServer.Env) :=
  [.destroy j .tau, .destroy j .tau, .wakeup j]

/-- A cycle of `Start` and `Close`, and a second one in which `select` fails and `Close` is called
when the worker has ended: both workers are done when the second `Close` returns. -/
theorem close_is_barrier_two_cycles :
    ∃ as s, (cellThread CellServer.callbacks .new).recorded.ReachWithin Undisturbed (as, s) ∧
      s.closeReturned = true ∧ s.workers = [.done, .done] ∧ s.Barrier ∧ s.Single := by
  obtain ⟨⟨as, s⟩, hs, hp⟩ := Machine.exists_reachWithin_of_run
    (M := (cellThread CellServer.callbacks .new).recorded) Undisturbed
    (List.flatten [[.start, .create 0, .run 0 .tau, .close, .wait, .run 0 .tau, .run 0 .tau,
      .run 0 .tau], clearAndWake 0, [.resume, .closeReturn], selectFails 1, exitAndReturn 1,
      clearAndWake 1, [.close]])
    (fun k => k.2.closeReturned && decide (k.2.workers = [.done, .done])) (by decide)
  simp only [Bool.and_eq_true, decide_eq_true_eq] at hp
  exact ⟨as, s, hs, hp.1, hp.2, (close_is_barrier CellServer.callbacks .new).1 as s hs⟩

/-- **Three ways past the barrier.**  After `Exit` a `Close` returns while the worker is in
front of `ClearClients`; a `Start` spawns a second worker next to the first; and the
`wakeup` of the first worker lets the `Close` of a second cycle return while its worker is
in `onRun`. -/
theorem exit_breaks_barrier :
    (∃ s, (cellThread CellServer.callbacks .new).Reachable s ∧
      s.workers = [.onDestory .map] ∧ ¬ s.Barrier) ∧
    (∃ s, (cellThread CellServer.callbacks .new).Reachable s ∧
      s.workers = [.onDestory .map, .onCreate] ∧ ¬ s.Single) ∧
    (∃ s, (cellThread CellServer.callbacks .new).Reachable s ∧
      s.workers = [.done, .onRun .loop] ∧ ¬ s.Barrier) := by
  refine ⟨?_, ?_, ?_⟩
  · obtain ⟨s, hs, hp⟩ := Machine.exists_reachable_of_run
      (M := cellThread CellServer.callbacks .new)
      (List.flatten [selectFails 0, exitAndReturn 0, [.close]])
      (fun s => decide (s.workers = [.onDestory .map] ∧ ¬ s.Barrier)) (by decide)
    exact ⟨s, hs, of_decide_eq_true hp⟩
  · obtain ⟨s, hs, hp⟩ := Machine.exists_reachable_of_run
      (M := cellThread CellServer.callbacks .new)
      (List.flatten [selectFails 0, exitAndReturn 0, [.start]])
      (fun s => decide (s.workers = [.onDestory .map, .onCreate])) (by decide)
    have hworkers := of_decide_eq_true hp
    refine ⟨s, hs, hworkers, fun hsingle => ?_⟩
    have h0 : s.workers[0]? = some (.onDestory .map) := by rw [hworkers]; rfl
    have h1 : s.workers[1]? = some .onCreate := by rw [hworkers]; rfl
    exact absurd (hsingle h0 h1 trivial trivial) (by decide)
  · obtain ⟨s, hs, hp⟩ := Machine.exists_reachable_of_run
      (M := cellThread CellServer.callbacks .new)
      (List.flatten [selectFails 0, exitAndReturn 0, clearAndWake 0,
        [.close, .start, .create 1, .close, .wait, .closeReturn]])
      (fun s => decide (s.workers = [.done, .onRun .loop] ∧ ¬ s.Barrier)) (by decide)
    exact ⟨s, hs, of_decide_eq_true hp⟩

/-! ## Deadlock -/

/-- The states of a server's thread. -/
abbrev ServerThread := State CellServer CellServer.Loc CellServer.ClearLoc

/-- While a `Close` is blocked, every worker that has not called `wakeup` can take a step. -/
def NoDeadlock (s : ServerThread) : Prop :=
  s.close = .blocked → ∀ j w, s.workers[j]? = some w → w.Alive →
    ∃ a t, a.worker? = some j ∧ step CellServer.callbacks s a = some t

/-- No worker stands at the lock in `Exit`. -/
def NoneExiting (s : ServerThread) : Prop := ∀ w ∈ s.workers, ∀ l, w ≠ .exiting l

instance (s : ServerThread) : Decidable (NoneExiting s) :=
  decidable_of_iff (s.workers.all fun w => match w with | .exiting _ => false | _ => true) <| by
    rw [List.all_eq_true]
    refine forall₂_congr fun w _ => ?_
    cases w <;> simp

/-- `Close` does not begin to wait while a worker stands at the lock in `Exit`, and `select`
does not fail while `Close` waits. -/
def Unobstructed (s : ServerThread) : Act CellServer.Env → Prop
  | .wait => s.sem.blocks = true → NoneExiting s
  | .run _ (.select none) => s.close ≠ .blocked
  | _ => True

instance (s : ServerThread) (a : Act CellServer.Env) : Decidable (Unobstructed s a) := by
  unfold Unobstructed
  split <;> infer_instance

variable {s t : ServerThread}

/-- A worker at the lock in `Exit` has no step while `Close` is blocked. -/
theorem stuck_of_exiting {a : Act CellServer.Env} {j : ℕ} {l : CellServer.Loc}
    (hblocked : s.close = .blocked) (hw : s.workers[j]? = some (.exiting l))
    (ha : a.worker? = some j) : step CellServer.callbacks s a = none := by
  rw [step, ha, Option.bind_eq_none_iff]
  intro w hw'
  obtain rfl : w = .exiting l := Option.some.inj (hw'.symm.trans hw)
  cases a with
  | exit k => exact if_neg (by simp [hblocked])
  | _ => rfl

/-- **A blocked `Close` and a worker in `Exit` are a deadlock**, and there is no other. -/
theorem noDeadlock_iff : NoDeadlock s ↔ (s.close = .blocked → NoneExiting s) := by
  constructor
  · rintro h hblocked w hw l rfl
    obtain ⟨j, hj⟩ := List.mem_iff_getElem?.mp hw
    obtain ⟨a, t, ha, hstep⟩ := h hblocked j _ hj trivial
    rw [stuck_of_exiting hblocked hj ha] at hstep
    cases hstep
  · intro h hblocked j w hw halive
    cases w with
    | onCreate => exact ⟨.create j, _, rfl, step_create.mpr ⟨hw, rfl⟩⟩
    | onRun l =>
      obtain ⟨i, ⟨d, n⟩, hrun⟩ := s.data.exists_onRun s.isRun l
      exact ⟨.run j i, _, rfl, step_run.mpr ⟨l, d, n, hw, hrun, rfl⟩⟩
    | exiting l => exact absurd rfl (h hblocked _ (List.mem_of_getElem? hw) l)
    | onDestory l =>
      obtain ⟨i, ⟨d, o⟩, hclear⟩ := s.data.exists_clearClients l
      exact ⟨.destroy j i, _, rfl, step_destroy.mpr ⟨l, d, o, hw, hclear, rfl⟩⟩
    | wakeup => exact ⟨.wakeup j, _, rfl, step_wakeup.mpr ⟨hw, rfl⟩⟩
    | done => exact absurd halive not_false

/-- A worker comes to the lock in `Exit` only when `select` fails. -/
theorem noneExiting_of_worker {a : Act CellServer.Env} {j : ℕ} (ha : a.worker? = some j)
    (hstep : step CellServer.callbacks s a = some t) (hs : NoneExiting s)
    (hselect : ∀ k, a ≠ .run k (.select none)) : NoneExiting t := by
  have hset {v : Worker CellServer.Loc CellServer.ClearLoc} (k : ℕ) (hv : ∀ l, v ≠ .exiting l) :
      ∀ w ∈ s.workers.set k v, ∀ l, w ≠ .exiting l := by
    intro w hw
    rcases List.mem_or_eq_of_mem_set hw with hw | rfl
    · exact hs w hw
    · exact hv
  cases a with
  | create k =>
    obtain ⟨-, rfl⟩ := step_create.mp hstep
    exact hset k nofun
  | run k i =>
    obtain ⟨l, d, n, -, hrun, rfl⟩ := step_run.mp hstep
    refine hset k fun l' hexit => ?_
    cases n with
    | exit l'' => exact hselect k (congrArg _ (CellServer.onRun_exit hrun))
    | _ => cases hexit
  | exit k =>
    obtain ⟨l, -, -, rfl⟩ := step_exit.mp hstep
    exact hset k nofun
  | destroy k i =>
    obtain ⟨l, d, o, -, -, rfl⟩ := step_destroy.mp hstep
    refine hset k fun l' hexit => ?_
    cases o <;> cases hexit
  | wakeup k =>
    obtain ⟨-, rfl⟩ := step_wakeup.mp hstep
    exact hset k nofun
  | _ => cases ha

/-- Control threads and `addClient` leave the workers of a blocked `Close` as they are. -/
theorem workers_of_control {a : Act CellServer.Env} (ha : a.worker? = none)
    (hstep : step CellServer.callbacks s a = some t) (hblocked : t.close = .blocked) :
    t.workers = s.workers ∧ (a = .wait ∧ s.sem.blocks = true ∨ s.close = .blocked) := by
  cases a with
  | start =>
    obtain ⟨hidle, rfl⟩ := step_start.mp hstep
    unfold start at hblocked
    split_ifs at hblocked <;> exact absurd (hidle.symm.trans hblocked) (by decide)
  | close =>
    obtain ⟨hidle, rfl⟩ := step_close.mp hstep
    unfold closeEnter at hblocked
    split_ifs at hblocked
    exact absurd (hidle.symm.trans hblocked) (by decide)
  | wait =>
    obtain ⟨-, rfl⟩ := step_wait.mp hstep
    refine ⟨rfl, .inl ⟨rfl, ?_⟩⟩
    by_contra hnot
    simp [closeWait, hnot] at hblocked
  | resume =>
    obtain ⟨-, rfl⟩ := step_resume.mp hstep
    cases hblocked
  | closeReturn =>
    obtain ⟨-, rfl⟩ := step_closeReturn.mp hstep
    cases hblocked
  | external i =>
    obtain ⟨d, -, rfl⟩ := step_external.mp hstep
    exact ⟨rfl, .inr hblocked⟩
  | _ => cases ha

/-- **One step**: from a state without deadlock, the next state is without deadlock exactly
when the step is unobstructed. -/
theorem noDeadlock_step_iff {a : Act CellServer.Env} (hs : NoDeadlock s)
    (hstep : step CellServer.callbacks s a = some t) : NoDeadlock t ↔ Unobstructed s a := by
  rw [noDeadlock_iff] at hs ⊢
  rcases hworker : a.worker? with _ | j
  · -- only `wait` makes a `Close` blocked
    by_cases hwait : a = .wait
    · subst hwait
      have hstop := hstep
      obtain ⟨-, rfl⟩ := step_wait.mp hstop
      show (_ → NoneExiting s) ↔ (_ → NoneExiting s)
      refine imp_congr_left ?_
      cases hblocks : s.sem.blocks <;> simp [closeWait, hblocks]
    · refine iff_of_true (fun hblocked => ?_) ?_
      · obtain ⟨hworkers, hcause⟩ := workers_of_control hworker hstep hblocked
        have hs' := hs (hcause.resolve_left fun h => hwait h.1)
        intro w hw
        exact hs' w (hworkers ▸ hw)
      · cases a <;> trivial
  · obtain ⟨w, w', hmove⟩ := workerMove hworker hstep
    rw [hmove.close]
    by_cases hselect : ∃ k, a = .run k (.select none)
    · obtain ⟨k, rfl⟩ := hselect
      obtain ⟨l, d, n, hw, hrun, rfl⟩ := step_run.mp hstep
      obtain rfl := CellServer.onRun_select_none hrun
      -- the worker that failed is at the lock now
      have hexiting : ¬ NoneExiting { s.setWorker k (.exiting .broken) with data := d } := by
        intro hnone
        have hlt := (List.getElem?_eq_some_iff.mp hw).1
        exact hnone _ (List.mem_set hlt _) _ rfl
      exact ⟨fun h hblocked => hexiting (h hblocked), fun h hblocked => absurd hblocked h⟩
    · have hselect' : ∀ k, a ≠ .run k (.select none) := fun k h => hselect ⟨k, h⟩
      refine iff_of_true (fun hblocked => ?_) ?_
      · exact noneExiting_of_worker hworker hstep (hs hblocked) hselect'
      · unfold Unobstructed
        split
        · cases hworker
        · exact absurd rfl (hselect' _)
        · trivial

/-- **When stopping a server cannot deadlock.**  In a run in which no `Close` begins to wait
while a worker stands at the lock in `Exit`, and `select` does not fail while a `Close`
waits, every worker a blocked `Close` may be waiting for can take a step.  A step of the
other kind leads into the deadlock. -/
theorem shutdown_no_deadlock (d : CellServer) :
    (∀ s, (cellThread CellServer.callbacks d).ReachWithin Unobstructed s → NoDeadlock s) ∧
    (∀ s a t, (cellThread CellServer.callbacks d).ReachWithin Unobstructed s →
      (cellThread CellServer.callbacks d).step s a = some t →
      (NoDeadlock t ↔ Unobstructed s a)) := by
  have hrun : ∀ s, (cellThread CellServer.callbacks d).ReachWithin Unobstructed s →
      NoDeadlock s := fun s hs =>
    hs.invariant (fun h => nomatch h) fun _ _ _ hs hok hstep =>
      (noDeadlock_step_iff hs hstep).mpr hok
  exact ⟨hrun, fun s a t hs hstep => noDeadlock_step_iff (hrun s hs) hstep⟩

/-- A `Close` that waits for a worker in `ClearClients`. -/
theorem shutdown_no_deadlock_clearing :
    ∃ s, (cellThread CellServer.callbacks .new).ReachWithin Unobstructed s ∧
      s.close = .blocked ∧ s.workers = [.onDestory .map] ∧ NoDeadlock s := by
  obtain ⟨s, hs, hp⟩ := Machine.exists_reachWithin_of_run
    (M := cellThread CellServer.callbacks .new) Unobstructed
    [.start, .create 0, .close, .wait, .run 0 .tau]
    (fun s => decide (s.close = .blocked ∧ s.workers = [.onDestory .map])) (by decide)
  obtain ⟨hblocked, hworkers⟩ := of_decide_eq_true hp
  exact ⟨s, hs, hblocked, hworkers, (shutdown_no_deadlock .new).1 s hs⟩

/-- `select` fails, `Close` gets the mutex first, and both wait. -/
theorem close_deadlocks_with_exit :
    ∃ s, (cellThread CellServer.callbacks .new).Reachable s ∧ s.close = .blocked ∧
      s.workers = [.exiting .broken] ∧ ¬ NoDeadlock s := by
  obtain ⟨s, hs, hp⟩ := Machine.exists_reachable_of_run
    (M := cellThread CellServer.callbacks .new) (List.flatten [selectFails 0, [.close, .wait]])
    (fun s => decide (s.close = .blocked ∧ s.workers = [.exiting .broken])) (by decide)
  obtain ⟨hblocked, hworkers⟩ := of_decide_eq_true hp
  refine ⟨s, hs, hblocked, hworkers, fun h => ?_⟩
  exact noDeadlock_iff.mp h hblocked _ (hworkers ▸ List.mem_singleton_self _) _ rfl

end Shutdown
end EasyTcpServer
