import EasyTcpServer.Server.SendTask

/-!
# Which client a reply reaches

A task waits while its client may be deleted and the slot of that client handed out again.

* `reply_reaches_its_client`: when a task runs, the object behind its pointer is the client it
  was queued for if and only if that client has not been deleted; and it is so in every run in
  which no client is deleted while a task for it waits or runs.
* `reply_reaches_other_client`: nothing in the code prevents that, and then the reply goes to
  the client that got the slot.
-/

namespace EasyTcpServer
namespace Reply

open CellThread (Worker)

variable {sizeofType nPoolLen : ℕ}

/-! ## The objects -/

/-- The blocks of the pool that hold a client. -/
def live (objects : Objects) : Set ℕ := {a | objects (a + sizeofNodeHeader) ≠ none}

/-- The pool is valid, and a client is found at its own address. -/
structure Housed (pool : ObjectPool sizeofType nPoolLen) (objects : Objects) : Prop where
  valid : pool.Valid (live objects)
  address : ∀ x c, objects x = some c → c.pClient = x ∧ sizeofNodeHeader ≤ x

/-- **Deleting some clients**, each of which lives at its address. -/
theorem Housed.delete {pool : ObjectPool sizeofType nPoolLen} {objects : Objects}
    (h : Housed pool objects) {cs : List ClientPtr} (hnodup : cs.Nodup)
    (hcs : ∀ c ∈ cs, objects c.pClient = some c) :
    Housed (cs.foldl release (pool, objects)).1 (cs.foldl release (pool, objects)).2 ∧
      ∀ x c, (cs.foldl release (pool, objects)).2 x = some c ↔ objects x = some c ∧ c ∉ cs := by
  induction cs generalizing pool objects with
  | nil => exact ⟨h, fun x c => by simp⟩
  | cons c cs ih =>
    obtain ⟨hc, hnodup⟩ := List.nodup_cons.mp hnodup
    have hhome := hcs c List.mem_cons_self
    obtain ⟨a, ha⟩ : ∃ a, c.pClient = a + sizeofNodeHeader :=
      ⟨_, (Nat.sub_add_cancel (h.address _ c hhome).2).symm⟩
    have hlive : live (Function.update objects c.pClient none) = live objects \ {a} := by
      ext b
      by_cases hba : b = a
      · simp [live, ha, hba]
      · simp [live, ha, hba]
    have hobjects (x : ℕ) (c' : ClientPtr) :
        Function.update objects c.pClient none x = some c' ↔ objects x = some c' ∧ c' ≠ c := by
      by_cases hx : x = c.pClient
      · subst hx
        simp only [Function.update_self, reduceCtorEq, hhome, Option.some.injEq, ne_eq, false_iff,
          not_and, not_not]
        exact Eq.symm
      · rw [Function.update_of_ne hx]
        refine (and_iff_left_of_imp fun hx' => ?_).symm
        rintro rfl
        exact hx (h.address x c' hx').1.symm
    have hfirst : Housed (release (pool, objects) c).1 (release (pool, objects) c).2 := by
      refine ⟨?_, fun x c' hx => h.address x c' ((hobjects x c').mp hx).1⟩
      show (pool.freeObjectMemory c.pClient).1.Valid _
      rw [release, hlive, ha]
      exact (h.valid.freeObjectMemory (by simp [live, ← ha, hhome])).1
    obtain ⟨hrest, hmem⟩ := ih hfirst hnodup fun c' hc' => (hobjects _ _).mpr
      ⟨hcs c' (List.mem_cons_of_mem _ hc'), fun heq => hc (heq ▸ hc')⟩
    refine ⟨hrest, fun x c' => (hmem x c').trans ?_⟩
    rw [List.mem_cons, not_or, ← and_assoc]
    exact and_congr_left' (hobjects x c')

/-- **A new client** gets an address at which no client lives. -/
theorem Housed.accept {s : State sizeofType nPoolLen} (h : Housed s.pool s.objects)
    (sockfd : Socket) {new : ℕ} (hnew : Unused s new) :
    s.objects (construct s sockfd new).pClient = none ∧
      Housed (s.pool.allocObject sizeofType fun _ => new).1
        (Function.update s.objects (construct s sockfd new).pClient
          (some (construct s sockfd new))) := by
  have hoff : ¬ s.pool.IsSlot new := by
    rintro ⟨n, hn, rfl⟩
    have hle : n * (sizeofType + sizeofNodeHeader) < nPoolLen * (sizeofType + sizeofNodeHeader) :=
      Nat.mul_lt_mul_of_pos_right hn (Nat.add_pos_right _ (by decide))
    have hbuf := hnew.1
    simp only [ObjectPool.slot, ObjectPool.slotAt] at hbuf
    omega
  obtain ⟨a, hout, haddr, hvalid⟩ := h.valid.allocObject sizeofType (fun _ => new)
    fun _ => ⟨hoff, by simp [live, hnew.2]⟩
  have hp : (construct s sockfd new).pClient = a + sizeofNodeHeader := haddr
  rw [hp]
  refine ⟨by simpa [live] using hout, ?_, fun x c hx => ?_⟩
  · have hlive : live (Function.update s.objects (a + sizeofNodeHeader)
        (some (construct s sockfd new))) = insert a (live s.objects) := by
      ext b
      by_cases hba : b = a
      · simp [live, hba]
      · simp [live, hba]
    rw [hlive]
    exact hvalid
  · by_cases hxa : x = a + sizeofNodeHeader
    · subst hxa
      rw [Function.update_self] at hx
      obtain rfl := Option.some.inj hx
      exact ⟨hp, Nat.le_add_left _ _⟩
    · rw [Function.update_of_ne hxa] at hx
      exact h.address x c hx

/-! ## The tasks -/

section Tasks

variable {q : CellTaskServer SendTask} {w : Worker CellTaskServer.Loc Unit} {task : SendTask}

theorem mem_pending_of_running (h : running q w = some task) : task ∈ pending q w := by
  unfold running at h
  split at h
  · next k =>
    have hdrop : (q.tasks.drop k)[0]? = some task := by
      rw [List.getElem?_drop]
      exact h
    exact List.mem_append_left _ (List.mem_of_getElem? hdrop)
  · next k =>
    have hdrop : (q.taskBuf.drop k)[0]? = some task := by
      rw [List.getElem?_drop]
      exact h
    exact List.mem_append_right _ (List.mem_of_getElem? hdrop)
  · cases h

/-- What waits after a task has been added is that task, or waited before. -/
theorem mem_pending_addTask {task' : SendTask} (h : task' ∈ pending (q.addTask task) w) :
    task' ∈ pending q w ∨ task' = task := by
  have hdrop (k : ℕ) (l : List SendTask) (hmem : task' ∈ l ++ (q.taskBuf ++ [task]).drop k) :
      task' ∈ l ++ q.taskBuf.drop k ∨ task' = task := by
    rw [List.drop_append, ← List.append_assoc] at hmem
    exact (List.mem_append.mp hmem).imp_right fun hin =>
      List.mem_singleton.mp (List.mem_of_mem_drop hin)
  cases w with
  | onRun l =>
    cases l with
    | drain k | draining k | clear k => exact hdrop k _ h
    | _ => exact hdrop 0 _ h
  | _ => exact hdrop 0 _ h

/-- The worker takes tasks off, and adds none. -/
theorem mem_pending_onRun {isRun : Bool} {l : CellTaskServer.Loc}
    {q' : CellTaskServer SendTask} {started : Option SendTask} {n : Next CellTaskServer.Loc}
    (hrun : q.OnRun isRun l q' started n) (h : task ∈ pending q' (.ofRun () n)) :
    task ∈ pending q (.onRun l) := by
  have hnext {k : ℕ} {l : List SendTask} (hmem : task ∈ l.drop (k + 1)) : task ∈ l.drop k := by
    rw [← List.drop_drop] at hmem
    exact List.mem_of_mem_drop hmem
  cases hrun with
  | runEnd => exact List.mem_append_right _ h
  | move => simpa [Worker.ofRun, pending] using h
  | running => exact List.mem_append.mpr ((List.mem_append.mp h).imp_left hnext)
  | draining => exact List.mem_append.mpr ((List.mem_append.mp h).imp_right hnext)
  | clear =>
    rcases List.mem_append.mp h with h | h
    · exact List.mem_append_left _ h
    · cases h
  | _ => exact h

end Tasks

/-! ## Runs -/

variable {s s' : State sizeofType nPoolLen} {act : Act} {a : Lifecycle.Act}

/-- What holds in every state of a run. -/
structure Inv (s : State sizeofType nPoolLen) : Prop where
  thread : ∃ kept, Lifecycle.Inv kept s.thread
  housed : Housed s.pool s.objects
  home : ∀ c, s.objects c.pClient = some c ↔
    c ∈ s.thread.added ∧ ¬ Lifecycle.Deleted s.thread.data.log c
  id_lt : ∀ c ∈ s.thread.added, c.id < s.n
  queued : ∀ task ∈ pending s.tasks s.taskWorker, task.p_clients ∈ s.thread.added

instance (act : Act) : Decidable (Spared s act) := by
  unfold Spared
  split <;> infer_instance

/-- The clients of the waiting tasks have not been deleted. -/
def Waited (s : State sizeofType nPoolLen) : Prop :=
  ∀ task ∈ pending s.tasks s.taskWorker, ¬ Lifecycle.Deleted s.thread.data.log task.p_clients

theorem step_thread (h : step s (.thread a) = some s') :
    ∃ t, Lifecycle.step s.thread a = some t ∧ t.added = s.thread.added ∧
      s' = { s with
        thread := t
        pool := ((deletes s.thread a).foldl release (s.pool, s.objects)).1
        objects := ((deletes s.thread a).foldl release (s.pool, s.objects)).2 } := by
  have hmain (hadded : ∀ t, Lifecycle.step s.thread a = some t → t.added = s.thread.added)
      (h : ((Lifecycle.step s.thread a).map fun t =>
        let r := ((t.data.log.drop s.thread.data.log.length).filterMap victim).foldl release
          (s.pool, s.objects)
        { s with thread := t, pool := r.1, objects := r.2 }) = some s') :
      ∃ t, Lifecycle.step s.thread a = some t ∧ t.added = s.thread.added ∧
        s' = { s with
          thread := t
          pool := ((deletes s.thread a).foldl release (s.pool, s.objects)).1
          objects := ((deletes s.thread a).foldl release (s.pool, s.objects)).2 } := by
    obtain ⟨t, ht, rfl⟩ := Option.map_eq_some_iff.mp h
    obtain ⟨es, hlog, hvictims⟩ := log_step ht
    refine ⟨t, ht, hadded t ht, ?_⟩
    rw [hlog, List.drop_left, hvictims]
  cases a with
  | add c moves => cases h
  | run isRun i =>
    refine hmain (fun t ht => ?_) h
    obtain ⟨l, d, n, -, -, rfl⟩ := Lifecycle.step_run ht
    rfl
  | exit =>
    refine hmain (fun t ht => ?_) h
    obtain ⟨l, -, rfl⟩ := Lifecycle.step_exit ht
    rfl
  | destroy i =>
    refine hmain (fun t ht => ?_) h
    obtain ⟨l, d, o, -, -, rfl⟩ := Lifecycle.step_destroy ht
    rfl

/-- A step of the thread of the server. -/
theorem Inv.thread_step (hs : Inv s) (h : step s (.thread a) = some s') :
    Inv s' ∧ (Spared s (.thread a) → Waited s → Waited s') := by
  obtain ⟨t, ht, hadded, rfl⟩ := step_thread h
  obtain ⟨kept, hthread⟩ := hs.thread
  obtain ⟨kept', hthread', -⟩ := Lifecycle.inv_step hthread ht
  obtain ⟨es, hlog, hvictims⟩ := log_step ht
  have hdeleted (c : ClientPtr) : Lifecycle.Deleted t.data.log c ↔
      Lifecycle.Deleted s.thread.data.log c ∨ c ∈ deletes s.thread a := by
    rw [hlog, deleted_append, hvictims]
  obtain ⟨hhoused, hobjects⟩ := hs.housed.delete (nodup_deletes hthread)
    fun c hc => (hs.home c).mpr (deletes_alive hthread hc)
  refine ⟨⟨⟨kept', hthread'⟩, hhoused, fun c => ?_, fun c hc => hs.id_lt c (hadded ▸ hc),
    fun task htask => hadded.symm ▸ hs.queued task htask⟩, fun hspared hwaited task htask => ?_⟩
  · show (List.foldl release (s.pool, s.objects) (deletes s.thread a)).2 c.pClient = some c ↔
      c ∈ t.added ∧ ¬ Lifecycle.Deleted t.data.log c
    rw [hobjects, hs.home c, hdeleted, hadded]
    tauto
  · show ¬ Lifecycle.Deleted t.data.log task.p_clients
    rw [hdeleted, not_or]
    exact ⟨hwaited task htask, hspared task htask⟩

/-- A new client is not taken for one that was added before. -/
theorem Inv.construct_new (hs : Inv s) (sockfd : Socket) (new : ℕ) :
    construct s sockfd new ∉ s.thread.added := fun hin =>
  absurd (hs.id_lt _ hin) (lt_irrefl s.n)

/-- A client is accepted. -/
theorem Inv.accept_step (hs : Inv s) {sockfd : Socket} {new : ℕ} {moves : Bool}
    (h : step s (.accept sockfd new moves) = some s') :
    Inv s' ∧ (Waited s → Waited s') := by
  rw [step, Option.ite_none_right_eq_some] at h
  obtain ⟨hnew, h⟩ := h
  obtain ⟨t, ht, rfl⟩ := Option.map_eq_some_iff.mp h
  obtain ⟨kept, hthread⟩ := hs.thread
  obtain ⟨kept', hthread', -⟩ := Lifecycle.inv_step hthread ht
  obtain ⟨-, rfl⟩ := Lifecycle.step_add ht
  have hfresh := hs.construct_new sockfd new
  obtain ⟨hfree, hhoused⟩ := hs.housed.accept sockfd hnew
  generalize hc : construct s sockfd new = c at hfresh hfree hhoused hthread' ⊢
  have hid : c.id = s.n := by
    rw [← hc]
    rfl
  -- what is recorded about a client is recorded behind its `addClient`
  have hnotdeleted : ¬ Lifecycle.Deleted s.thread.data.log c := by
    have hwaiting := hthread.accounted.fresh c fun hin => hfresh (hthread.kept_added c hin)
    rw [Lifecycle.deleted_iff (by decide) hwaiting]
    decide
  refine ⟨⟨⟨kept', hthread'⟩, hhoused, fun c' => ?_, fun c' hc' => ?_, fun task htask =>
    List.mem_append_left _ (hs.queued task htask)⟩, fun hwaited => hwaited⟩
  · show Function.update s.objects c.pClient (some c) c'.pClient = some c' ↔
      c' ∈ s.thread.added ++ [c] ∧ ¬ Lifecycle.Deleted s.thread.data.log c'
    rw [List.mem_append, List.mem_singleton]
    by_cases hcc : c' = c
    · subst hcc
      simp [hnotdeleted]
    · simp only [hcc, or_false]
      rw [← hs.home c']
      by_cases haddr : c'.pClient = c.pClient
      · rw [haddr, Function.update_self, hfree]
        simpa using Ne.symm hcc
      · rw [Function.update_of_ne haddr]
  · rcases List.mem_append.mp hc' with hc' | hc'
    · exact (hs.id_lt c' hc').trans (Nat.lt_succ_self _)
    · rw [List.mem_singleton.mp hc', hid]
      exact Nat.lt_succ_self _

/-- **What a step keeps.** -/
theorem inv_step (hs : Inv s) (h : step s act = some s') :
    Inv s' ∧ (Spared s act → Waited s → Waited s') := by
  cases act with
  | thread a => exact hs.thread_step h
  | accept sockfd new moves => exact (hs.accept_step h).imp_right fun hkeep _ => hkeep
  | addSendTask p_clients data_header =>
    obtain ⟨⟨-, hfind⟩, rfl⟩ := Machine.guarded_eq_some.mp h
    obtain ⟨kept, hthread⟩ := hs.thread
    obtain ⟨-, hkept, hjoined⟩ := hthread.accounted.map_mem _ _ hfind
    refine ⟨⟨hs.thread, hs.housed, hs.home, hs.id_lt, fun task htask => ?_⟩,
      fun _ hwaited task htask => ?_⟩
    · rcases mem_pending_addTask htask with htask | rfl
      · exact hs.queued task htask
      · exact hthread.kept_added _ hkept
    · rcases mem_pending_addTask htask with htask | rfl
      · exact hwaited task htask
      · rw [Lifecycle.deleted_iff (by decide) hjoined]
        decide
  | task isRun =>
    simp only [step] at h
    split at h
    · next l hl =>
      obtain rfl := Option.some.inj h
      have hpending {task : SendTask} (htask : task ∈ pending (s.tasks.onRun isRun l).1
          (.ofRun () (s.tasks.onRun isRun l).2.2)) : task ∈ pending s.tasks s.taskWorker := by
        rw [hl]
        exact mem_pending_onRun (s.tasks.onRun_cases isRun l) htask
      exact ⟨⟨hs.thread, hs.housed, hs.home, hs.id_lt,
        fun task htask => hs.queued task (hpending htask)⟩,
        fun _ hwaited task htask => hwaited task (hpending htask)⟩
    · cases h
  | startTask =>
    have hpending : pending s'.tasks s'.taskWorker = pending s.tasks s.taskWorker ∧
        s' = { s with taskWorker := s'.taskWorker } := by
      simp only [step] at h
      split at h
      · cases h
      · next hnot =>
        obtain rfl := Option.some.inj h
        refine ⟨?_, rfl⟩
        cases hworker : s.taskWorker with
        | onRun l => exact absurd hworker (hnot l)
        | _ => rfl
    obtain ⟨hpending, hs'⟩ := hpending
    rw [hs'] at hpending ⊢
    exact ⟨⟨hs.thread, hs.housed, hs.home, hs.id_lt,
      fun task htask => hs.queued task (hpending ▸ htask)⟩,
      fun _ hwaited task htask => hwaited task (hpending ▸ htask)⟩

theorem inv_init (hlen : 1 ≤ nPoolLen) (pBuf : ℕ) (nodes : ℕ → NodeHeader) :
    Inv (replyServer sizeofType nPoolLen pBuf nodes).init := by
  have hempty : live (fun _ => none) = ∅ := by
    ext a
    simp [live]
  refine ⟨⟨[], Lifecycle.inv_init⟩, ⟨?_, nofun⟩, fun c => ⟨nofun, ?_⟩, nofun, nofun⟩
  · show ObjectPool.Valid _ (live fun _ => none)
    rw [hempty]
    exact ObjectPool.valid_initObjectPool hlen pBuf nodes
  · rintro ⟨hc, -⟩
    cases hc

/-- **Replies and clients.**  When a task runs, the object behind its pointer is the client it
was queued for if and only if that client has not been deleted.  In a run in which no client
is deleted while a task for it waits or runs, it is that client whenever a task runs. -/
theorem reply_reaches_its_client (hlen : 1 ≤ nPoolLen) (pBuf : ℕ) (nodes : ℕ → NodeHeader) :
    (∀ s, (replyServer sizeofType nPoolLen pBuf nodes).Reachable s →
      ∀ task, running s.tasks s.taskWorker = some task →
        (s.objects task.p_clients.pClient = some task.p_clients ↔
          ¬ Lifecycle.Deleted s.thread.data.log task.p_clients)) ∧
    ∀ s, (replyServer sizeofType nPoolLen pBuf nodes).ReachWithin Spared s →
      ∀ task, running s.tasks s.taskWorker = some task →
        s.objects task.p_clients.pClient = some task.p_clients ∧
          ¬ Lifecycle.Deleted s.thread.data.log task.p_clients := by
  have hinit : Inv (replyServer sizeofType nPoolLen pBuf nodes).init := inv_init hlen pBuf nodes
  constructor
  · intro s hs task htask
    have hinv : Inv s := hs.invariant hinit fun _ _ _ hs hstep => (inv_step hs hstep).1
    rw [hinv.home]
    exact and_iff_right (hinv.queued task (mem_pending_of_running htask))
  · intro s hs task htask
    have hmem := mem_pending_of_running htask
    have hinv : Inv s ∧ Waited s := by
      refine hs.invariant (I := fun s => Inv s ∧ Waited s) ⟨hinit, nofun⟩ ?_
      rintro s act s' ⟨hs, hwaited⟩ hok hstep
      exact (inv_step hs hstep).imp_right fun hkeep => hkeep hok hwaited
    have halive := hinv.2 task hmem
    exact ⟨(hinv.1.home _).mpr ⟨hinv.1.queued task hmem, halive⟩, halive⟩

/-- A client is accepted, sends a message and gets its reply. -/
theorem reply_reaches_its_client_first :
    ∃ s, (replyServer 96 1000 1000 fun _ => ⟨none, 0, 0, false⟩).ReachWithin Spared s ∧
      running s.tasks s.taskWorker = some ⟨⟨1016, 1, 7⟩, 5000⟩ ∧
      s.objects 1016 = some ⟨1016, 1, 7⟩ := by
  obtain ⟨s, hs, htest⟩ := Machine.exists_reachWithin_of_run
    (M := replyServer 96 1000 1000 fun _ => ⟨none, 0, 0, false⟩) Spared
    [.accept 7 0 false, .thread (.run true .tau), .thread (.run true .tau),
      .thread (.run true .tau), .thread (.run true .tau),
      .thread (.run true (.select (some ([7], [], [])))), .thread (.run true (.recv 4)),
      .thread (.run true .msg), .addSendTask ⟨1016, 1, 7⟩ 5000, .task true, .task true,
      .task true, .task true, .task true]
    (fun s => decide (running s.tasks s.taskWorker = some ⟨⟨1016, 1, 7⟩, 5000⟩))
    (by decide +kernel)
  have htask := of_decide_eq_true htest
  exact ⟨s, hs, htask, ((reply_reaches_its_client (by decide) _ _).2 s hs _ htask).1⟩

/-- **A reply to the wrong client.**  The client is deleted by its heartbeat while the reply
waits, and the next client that is accepted gets its slot. -/
theorem reply_reaches_other_client :
    ∃ s, (replyServer 96 1000 1000 fun _ => ⟨none, 0, 0, false⟩).Reachable s ∧
      running s.tasks s.taskWorker = some ⟨⟨1016, 1, 7⟩, 5000⟩ ∧
      s.objects 1016 = some ⟨1016, 2, 7⟩ := by
  obtain ⟨s, hs, htest⟩ := Machine.exists_reachable_of_run
    (M := replyServer 96 1000 1000 fun _ => ⟨none, 0, 0, false⟩)
    [.accept 7 0 false, .thread (.run true .tau), .thread (.run true .tau),
      .thread (.run true .tau), .thread (.run true .tau),
      .thread (.run true (.select (some ([7], [], [])))), .thread (.run true (.recv 4)),
      .thread (.run true .msg), .addSendTask ⟨1016, 1, 7⟩ 5000, .thread (.run true .tau),
      .thread (.run true .tau), .thread (.run true .tau), .thread (.run true .tau),
      .thread (.run true (.heart true)), .accept 7 0 false, .task true, .task true, .task true,
      .task true, .task true]
    (fun s => decide (running s.tasks s.taskWorker = some ⟨⟨1016, 1, 7⟩, 5000⟩ ∧
      s.objects 1016 = some ⟨1016, 2, 7⟩)) (by decide +kernel)
  exact ⟨s, hs, of_decide_eq_true htest⟩

end Reply
end EasyTcpServer
