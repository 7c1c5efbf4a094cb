import EasyTcpServer.Pool.ObjectPool
import EasyTcpServer.Server.Lifecycle
import EasyTcpServer.Task.CellTaskServer

/-!
# Replies

A message handler answers through `addSendTask`, which hands the task server a task that
keeps the plain pointer to the client.  The task runs later, on the thread of the task server,
while the thread of the server goes on serving and deleting clients.  Clients live in the
object pool of their class, and the pool gives the slot of a deleted client to the next client
that is accepted.

The machine puts together the thread of the server (`Lifecycle`), the pool, the worker of the
task server, and a thread that accepts clients.  `objects` says which client lives at an
address; it is what the program itself cannot see.

`deletes` says which clients a step of the server's thread deletes.  They are those that the
step records as deleted (`log_step`), and none of them had been deleted before.
-/

namespace EasyTcpServer

open CellThread (Worker)

/-- What the task queued by `addSendTask` keeps.  Of the client it keeps the pointer; which
client that was is written down for the statements. -/
structure SendTask where
  p_clients : ClientPtr
  data_header : ℕ
  deriving DecidableEq, Repr

namespace Reply

variable {sizeofType nPoolLen : ℕ}

/-- The client an event deletes. -/
def victim : Event → Option ClientPtr
  | .delete c | .clear c => some c
  | _ => none

/-- Which client lives at which address. -/
abbrev Objects := ℕ → Option ClientPtr

/-- `operator delete` of the class, for one client. -/
def release (r : ObjectPool sizeofType nPoolLen × Objects) (c : ClientPtr) :
    ObjectPool sizeofType nPoolLen × Objects :=
  ((r.1.freeObjectMemory c.pClient).1, Function.update r.2 c.pClient none)

structure State (sizeofType nPoolLen : ℕ) where
  thread : Lifecycle.State
  pool : ObjectPool sizeofType nPoolLen
  objects : Objects
  /-- The static counter in the constructor of `Cell_Client`. -/
  n : ℕ
  tasks : CellTaskServer SendTask
  taskWorker : Worker CellTaskServer.Loc Unit

inductive Act where
  /-- A step of the thread of the server. -/
  | thread (a : Lifecycle.Act)
  /-- A client is accepted; `new` is what `operator new[]` returns if the pool asks it. -/
  | accept (sockfd : Socket) (new : ℕ) (moves : Bool)
  /-- A handler calls `addSendTask`. -/
  | addSendTask (p_clients : ClientPtr) (data_header : ℕ)
  /-- A step of the worker of the task server, with the value `isRun()` has then. -/
  | task (isRun : Bool)
  /-- The task server is started again, behind the end of its worker. -/
  | startTask

variable (s : State sizeofType nPoolLen)

/-- The thread of the server is in `onNetMsg`. -/
def InNetMsg (t : Lifecycle.State) : Prop :=
  match t.worker with
  | .onRun (.handle c _ _ _) => t.data.log.getLast? = some (.msg c)
  | _ => False

instance (t : Lifecycle.State) : Decidable (InNetMsg t) := by
  unfold InNetMsg
  split <;> infer_instance

/-- What `operator new[]` returns lies outside the buffer and is not in use. -/
def Unused (new : ℕ) : Prop :=
  (new < s.pool.pBuf ∨ s.pool.slot nPoolLen ≤ new) ∧ s.objects (new + sizeofNodeHeader) = none

instance (new : ℕ) : Decidable (Unused s new) := by
  unfold Unused
  infer_instance

/-- `new Cell_Client`. -/
def construct (sockfd : Socket) (new : ℕ) : ClientPtr :=
  ⟨(s.pool.allocObject sizeofType fun _ => new).2, s.n, sockfd⟩

def step : Act → Option (State sizeofType nPoolLen)
  | .thread (.add _ _) => none
  | .thread a =>
    (Lifecycle.step s.thread a).map fun t =>
      let r := ((t.data.log.drop s.thread.data.log.length).filterMap victim).foldl release
        (s.pool, s.objects)
      { s with thread := t, pool := r.1, objects := r.2 }
  | .accept sockfd new moves =>
    if Unused s new then
      let c := construct s sockfd new
      (Lifecycle.step s.thread (.add c moves)).map fun t =>
        { s with
          thread := t
          pool := (s.pool.allocObject sizeofType fun _ => new).1
          objects := Function.update s.objects c.pClient (some c)
          n := s.n + 1 }
    else none
  | .addSendTask p_clients data_header =>
    if InNetMsg s.thread ∧ s.thread.data.clients[p_clients.sockfd]? = some p_clients then
      some { s with tasks := s.tasks.addTask ⟨p_clients, data_header⟩ }
    else none
  | .task isRun =>
    match s.taskWorker with
    | .onRun l =>
      let r := s.tasks.onRun isRun l
      some { s with tasks := r.1, taskWorker := .ofRun () r.2.2 }
    | _ => none
  | .startTask =>
    match s.taskWorker with
    | .onRun _ => none
    | _ => some { s with taskWorker := .onRun .loop }

end Reply

/-- A server with its task server and the pool of its clients. -/
def replyServer (sizeofType nPoolLen pBuf : ℕ) (nodes : ℕ → NodeHeader) :
    Machine (Reply.State sizeofType nPoolLen) Reply.Act where
  init := ⟨serverThread.init, .initObjectPool sizeofType nPoolLen pBuf nodes, fun _ => none, 1,
    .new, .onRun .loop⟩
  step := Reply.step

namespace Reply

variable {sizeofType nPoolLen : ℕ}

/-- The task that is running. -/
def running (q : CellTaskServer SendTask) : Worker CellTaskServer.Loc Unit → Option SendTask
  | .onRun (.running k) => q.tasks[k]?
  | .onRun (.draining k) => q.taskBuf[k]?
  | _ => none

/-- The tasks that wait in one of the lists or run. -/
def pending (q : CellTaskServer SendTask) : Worker CellTaskServer.Loc Unit → List SendTask
  | .onRun (.run k) | .onRun (.running k) => q.tasks.drop k ++ q.taskBuf
  | .onRun (.drain k) | .onRun (.draining k) | .onRun (.clear k) => q.tasks ++ q.taskBuf.drop k
  | _ => q.tasks ++ q.taskBuf

/-- The clients a step of the thread of the server deletes. -/
def deletes (t : Lifecycle.State) : Lifecycle.Act → List ClientPtr
  | .run _ i =>
    match t.worker, i with
    | .onRun (.read (sockfd :: _) _ _), .recv nLen =>
      if nLen < 0 then t.data.clients[sockfd]?.toList else []
    | .onRun (.write (sockfd :: _) _), .send ret =>
      if ret = -1 then t.data.clients[sockfd]?.toList else []
    | .onRun (.checkTime (sockfd :: _)), .heart dead =>
      if dead then t.data.clients[sockfd]?.toList else []
    | _, _ => []
  | .destroy _ =>
    match t.worker with
    | .onDestory .map => t.data.clients.toList.map Prod.snd
    | .onDestory (.buff k n) => if k < n then t.data.clientsBuff[k]?.toList else []
    | _ => []
  | _ => []

/-- No client is deleted while a task for it waits or runs. -/
def Spared (s : State sizeofType nPoolLen) : Act → Prop
  | .thread a => ∀ task ∈ pending s.tasks s.taskWorker, task.p_clients ∉ deletes s.thread a
  | _ => True

/-! ## Deletions -/

theorem deleted_append {log es : List Event} {c : ClientPtr} :
    Lifecycle.Deleted (log ++ es) c ↔ Lifecycle.Deleted log c ∨ c ∈ es.filterMap victim := by
  have hes : c ∈ es.filterMap victim ↔ .delete c ∈ es ∨ .clear c ∈ es := by
    rw [List.mem_filterMap]
    constructor
    · rintro ⟨e, he, hvictim⟩
      cases e <;> cases hvictim
      · exact .inl he
      · exact .inr he
    · rintro (he | he)
      · exact ⟨_, he, rfl⟩
      · exact ⟨_, he, rfl⟩
  rw [hes]
  simp only [Lifecycle.Deleted, List.mem_append]
  tauto

variable {t t' : Lifecycle.State} {a : Lifecycle.Act}

/-- A client that leaves is the only victim. -/
theorem victims_leave {e : Event} {c : ClientPtr} (he : victim e = none) :
    ([e] ++ [Event.leave c, Event.delete c]).filterMap victim = [c] := by
  rw [List.filterMap_append, List.filterMap_cons_none he]
  rfl

/-- The victims recorded by a step of `onRun`. -/
theorem log_onRun {d d' : CellServer} {isRun : Bool} {l : CellServer.Loc} {i : CellServer.Env}
    {n : Next CellServer.Loc} (h : d.onRun isRun l i = some (d', n)) :
    ∃ es, d'.log = d.log ++ es ∧
      es.filterMap victim = deletes ⟨d, .onRun l, []⟩ (.run isRun i) := by
  cases CellServer.onRun_cases h with
  | idle hi hsame =>
    refine ⟨[], by rw [hsame.log, List.append_nil], ?_⟩
    rcases hi with rfl | ⟨sets, rfl⟩ <;> simp [deletes]
  | selectFails => exact ⟨[], (List.append_nil _).symm, rfl⟩
  | merge =>
    exact ⟨_, rfl, by simp [deletes, List.filterMap_map, Function.comp_def, victim]⟩
  | recv hc hlen => exact ⟨_, rfl, by simp [deletes, hlen, victim]⟩
  | msg => exact ⟨_, rfl, rfl⟩
  | send hc hret => exact ⟨_, rfl, by simp [deletes, hret, victim]⟩
  | heart hc => exact ⟨_, rfl, by simp [deletes, victim]⟩
  | recvFails hc hlen =>
    exact ⟨_, List.append_assoc _ _ _, (victims_leave rfl).trans (by simp [deletes, hlen, hc])⟩
  | sendFails hc | heartFails hc =>
    exact ⟨_, List.append_assoc _ _ _, (victims_leave rfl).trans (by simp [deletes, hc])⟩

/-- **The victims recorded by a step** are those it deletes. -/
theorem log_step (h : Lifecycle.step t a = some t') :
    ∃ es, t'.data.log = t.data.log ++ es ∧ es.filterMap victim = deletes t a := by
  cases a with
  | run isRun i =>
    obtain ⟨l, d, n, hl, hrun, rfl⟩ := Lifecycle.step_run h
    obtain ⟨es, hlog, hvictims⟩ := log_onRun hrun
    refine ⟨es, hlog, hvictims.trans ?_⟩
    simp only [deletes, hl]
  | exit =>
    obtain ⟨l, -, rfl⟩ := Lifecycle.step_exit h
    exact ⟨[], (List.append_nil _).symm, rfl⟩
  | destroy i =>
    obtain ⟨l, d, o, hl, hclear, rfl⟩ := Lifecycle.step_destroy h
    cases CellServer.clearClients_cases hclear with
    | map =>
      refine ⟨_, rfl, ?_⟩
      simp [deletes, hl, List.filterMap_map, Function.comp_def, victim]
    | next hlt hc => exact ⟨_, rfl, by simp [deletes, hl, hlt, hc, victim]⟩
    | dangling hlt hc =>
      exact ⟨[], (List.append_nil _).symm, by simp [deletes, hl, hlt, hc]⟩
    | buff hle =>
      exact ⟨[], (List.append_nil _).symm, by simp [deletes, hl, not_lt.mpr hle]⟩
  | add c moves =>
    obtain ⟨-, rfl⟩ := Lifecycle.step_add h
    exact ⟨[], (List.append_nil _).symm, rfl⟩

/-- A client that a step deletes has been added, and had not been deleted. -/
theorem deletes_alive {kept : List ClientPtr} (ht : Lifecycle.Inv kept t) {c : ClientPtr}
    (hc : c ∈ deletes t a) : c ∈ t.added ∧ ¬ Lifecycle.Deleted t.data.log c := by
  have hacc := ht.accounted
  have hfound {k : Socket} (hk : t.data.clients[k]? = some c) :
      c ∈ t.added ∧ ¬ Lifecycle.Deleted t.data.log c := by
    obtain ⟨-, hkept, hjoined⟩ := hacc.map_mem k c hk
    refine ⟨ht.kept_added c hkept, ?_⟩
    rw [Lifecycle.deleted_iff (by decide) hjoined]
    decide
  have hvisited {lost : Prop} [Decidable lost] {k : Socket}
      (hk : c ∈ if lost then t.data.clients[k]?.toList else []) :
      c ∈ t.added ∧ ¬ Lifecycle.Deleted t.data.log c := by
    split_ifs at hk
    · exact hfound (Option.mem_toList.mp hk)
    · cases hk
  cases a with
  | run isRun i =>
    simp only [deletes] at hc
    split at hc
    · exact hvisited hc
    · exact hvisited hc
    · exact hvisited hc
    · cases hc
  | destroy i =>
    simp only [deletes] at hc
    split at hc
    · obtain ⟨k, hk⟩ := Lifecycle.mem_values.mp hc
      exact hfound hk
    · next k n hl =>
      split_ifs at hc
      · have hmem : c ∈ Lifecycle.queue t.data := by
          rw [Lifecycle.queue, ht.walk, hl]
          refine List.mem_of_getElem? (i := 0) ?_
          rw [List.getElem?_drop]
          exact Option.mem_toList.mp hc
        obtain ⟨hkept, hwaiting⟩ := hacc.queue_mem c hmem
        refine ⟨ht.kept_added c hkept, ?_⟩
        rw [Lifecycle.deleted_iff (by decide) hwaiting]
        decide
      · cases hc
    · cases hc
  | _ => cases hc

theorem nodup_deletes {kept : List ClientPtr} (ht : Lifecycle.Inv kept t) :
    (deletes t a).Nodup := by
  have hone (o : Option ClientPtr) : o.toList.Nodup := by cases o <;> simp
  cases a with
  | run isRun i =>
    simp only [deletes]
    split <;> first | exact .nil | (split_ifs <;> first | exact hone _ | exact .nil)
  | destroy i =>
    simp only [deletes]
    split
    · exact Lifecycle.nodup_values fun k c hc => (ht.accounted.map_mem k c hc).1
    · split_ifs
      · exact hone _
      · exact .nil
    · exact .nil
  | _ => exact .nil

end Reply
end EasyTcpServer
