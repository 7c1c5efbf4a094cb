import EasyTcpServer.Buffer.CellClient
import EasyTcpServer.Lib.Machine
import EasyTcpServer.Pool.MemoryPool

/-!
# Who deletes a message

`addSendTask` is given a message on the heap.  The task it queues calls `sendData` and then
deletes the message.  `sendData` hands the message to `push`, which deletes it too, whether
it has room for it or not, and when `push` has accepted, `sendData` reads the length of the
message for its return value.

So the task makes two releases, whatever the message and whatever the send buffer holds.
The machine below runs what the task does to the message, one access at a time, on the
memory manager, with other threads allocating and freeing in between.

* `message_released_twice`: no message is released once.  If the message is a block of a
  pool, the second release fails the assertion in `freeMemory`, or, when another thread has
  been given the block in between, takes the block from that thread.
-/

namespace EasyTcpServer

/-- The result of a task: the client, and what the task did to the message. -/
structure SendTaskResult where
  client : CellClient
  accesses : List Access

/-- The task that `addSendTask(p_clients, data_header)` queues, when it runs. -/
def CellServer.sendTask (p_clients : CellClient) (data_header : List UInt8) :
    Option SendTaskResult :=
  (p_clients.sendData data_header).map fun r => ⟨r.client, r.accesses ++ [.release]⟩

namespace Ownership

open MemoryMgr (HandedOut InUse InFront)

structure State where
  mgr : MemoryMgr
  /-- What the task has still to do to the message. -/
  todo : List Access
  /-- How often the message has been released. -/
  released : ℕ
  /-- The message has been read behind a release. -/
  readReleased : Bool
  /-- A release of the message has failed the assertion. -/
  failed : Bool
  /-- What other threads were given and have not freed. -/
  held : List ℕ
  /-- A release of the message has freed what another thread was given. -/
  stolen : Bool

inductive Act where
  /-- The task goes on. -/
  | access
  /-- Another thread allocates. -/
  | alloc (malloc : ℕ → Option ℕ) (nSize : ℕ)
  /-- Another thread frees what it was given. -/
  | free (pMem : ℕ)

/-- The task reads the message; then it has `todo` to do. -/
def State.read (s : State) (todo : List Access) : State :=
  { s with todo := todo, readReleased := s.readReleased || decide (0 < s.released) }

/-- The task has deleted the message at `data_header`, which made the manager `mgr`. -/
def State.release (s : State) (data_header : ℕ) (mgr : MemoryMgr) (todo : List Access) : State :=
  { s with
    mgr := mgr
    todo := todo
    released := s.released + 1
    failed := s.failed || !decide (s.mgr.FreeAssert data_header)
    stolen := s.stolen || decide (data_header ∈ s.held) }

/-- A step, when the message is at `data_header`. -/
def step (data_header : ℕ) (s : State) : Act → Option State
  | .access =>
    match s.todo with
    | [] => none
    | .read :: todo => some (s.read todo)
    | .release :: todo =>
      (s.mgr.freeMem (some data_header)).map fun r => s.release data_header r.1 todo
  | .alloc malloc nSize =>
    (s.mgr.allocMem malloc nSize).map fun r => { s with mgr := r.1, held := r.2.toList ++ s.held }
  | .free pMem =>
    if pMem ∈ s.held then
      (s.mgr.freeMem (some pMem)).map fun r => { s with mgr := r.1, held := s.held.erase pMem }
    else none

/-- The message is released once, not read behind that, with the assertion true, and no
other thread loses a block. -/
structure Kept (s : State) : Prop where
  released_le : s.released ≤ 1
  done : s.todo = [] → s.released = 1
  unread : s.readReleased = false
  asserts : s.failed = false
  unstolen : s.stolen = false

end Ownership

/-- A task that has `todo` to do to a message in the block `a`, while other threads hold
`held`. -/
def ownershipRun (mgr : MemoryMgr) (a : ℕ) (todo : List Access) (held : List ℕ) :
    Machine Ownership.State Ownership.Act where
  init := ⟨mgr, todo, 0, false, false, held, false⟩
  step := Ownership.step (a + sizeofMemoryBlock)

namespace Ownership

open MemoryMgr (HandedOut InUse InFront)

variable {a : ℕ} {s t : State} {g : MemoryMgr} {todo : List Access} {held : List ℕ}

/-- **What a task does to a message**: some reads and a release, twice. -/
theorem accesses_of_sendTask {c : CellClient} {msg : List UInt8} {r : SendTaskResult}
    (h : CellServer.sendTask c msg = some r) :
    ∃ n m, r.accesses = List.replicate n .read ++ .release ::
      (List.replicate m .read ++ [.release]) := by
  obtain ⟨d, hd, rfl⟩ := Option.map_eq_some_iff.mp h
  obtain ⟨p, hp, rfl⟩ := Option.map_eq_some_iff.mp hd
  rcases CellBuffer.accesses_of_push hp with ⟨hret, hacc⟩ | ⟨hret, hacc⟩
  · exact ⟨2, 1, by simp [hret, hacc]⟩
  · exact ⟨1, 0, by simp [hret, hacc]⟩

theorem Reachable.read (hs : (ownershipRun g a todo held).Reachable s) {rest : List Access}
    (h : s.todo = .read :: rest) : (ownershipRun g a todo held).Reachable (s.read rest) := by
  refine hs.next (i := .access) ?_
  simp only [ownershipRun, step, h]

theorem Reachable.release (hs : (ownershipRun g a todo held).Reachable s) {rest : List Access}
    {r : MemoryMgr × Option ℕ × ℤ} (h : s.todo = .release :: rest)
    (hr : s.mgr.freeMem (some (a + sizeofMemoryBlock)) = some r) :
    (ownershipRun g a todo held).Reachable (s.release (a + sizeofMemoryBlock) r.1 rest) := by
  refine hs.next (i := .access) ?_
  simp only [ownershipRun, step, h, hr, Option.map_some]

theorem Reachable.alloc (hs : (ownershipRun g a todo held).Reachable s) {malloc : ℕ → Option ℕ}
    {nSize : ℕ} {r : MemoryMgr × Option ℕ} (hr : s.mgr.allocMem malloc nSize = some r) :
    (ownershipRun g a todo held).Reachable
      { s with mgr := r.1, held := r.2.toList ++ s.held } := by
  refine hs.next (i := .alloc malloc nSize) ?_
  simp only [ownershipRun, step, hr, Option.map_some]

/-- Every release of the task is counted. -/
theorem released_add_count (h : (ownershipRun g a todo held).Reachable s) :
    s.released + s.todo.count .release = todo.count .release := by
  refine h.invariant (I := fun s => s.released + s.todo.count .release = todo.count .release)
    (Nat.zero_add _) ?_
  intro s act t hs hstep
  cases act with
  | access =>
    simp only [ownershipRun, step] at hstep
    split at hstep
    · cases hstep
    · next rest htodo =>
      obtain rfl := Option.some.inj hstep
      simpa [State.read, htodo] using hs
    · next rest htodo =>
      obtain ⟨r, -, rfl⟩ := Option.map_eq_some_iff.mp hstep
      rw [htodo, List.count_cons_self] at hs
      show s.released + 1 + rest.count .release = _
      omega
  | alloc malloc nSize =>
    obtain ⟨r, -, rfl⟩ := Option.map_eq_some_iff.mp hstep
    exact hs
  | free pMem =>
    obtain ⟨-, hstep⟩ := Option.ite_none_right_eq_some.mp hstep
    obtain ⟨r, -, rfl⟩ := Option.map_eq_some_iff.mp hstep
    exact hs

/-! ## The task alone -/

/-- The task can always go on to its end. -/
theorem exists_done (hs : (ownershipRun g a todo held).Reachable s) (ha : s.mgr.HandedOut a) :
    ∃ t, (ownershipRun g a todo held).Reachable t ∧ t.todo = [] := by
  induction hrest : s.todo generalizing s with
  | nil => exact ⟨s, hs, hrest⟩
  | cons x rest ih =>
    cases x with
    | read => exact ih (Reachable.read hs hrest) ha rfl
    | release =>
      obtain ⟨r, hr, ha'⟩ := ha.freeMem
      exact ih (Reachable.release hs hrest hr) ha' rfl

/-- A task that only reads for a while. -/
theorem exists_reads (hs : (ownershipRun g a todo held).Reachable s) {n : ℕ} {rest : List Access}
    (htodo : s.todo = List.replicate n .read ++ rest) :
    ∃ b, (ownershipRun g a todo held).Reachable { s with todo := rest, readReleased := b } := by
  induction n generalizing s with
  | zero =>
    refine ⟨s.readReleased, ?_⟩
    have hsame : ({ s with todo := rest, readReleased := s.readReleased } : State) = s := by
      rw [← (htodo.trans (List.nil_append rest))]
    rwa [hsame]
  | succ n ih =>
    rw [List.replicate_succ, List.cons_append] at htodo
    obtain ⟨b, hb⟩ := ih (Reachable.read hs htodo) rfl
    exact ⟨b, hb⟩

/-! ## The two releases -/

/-- The two releases of a message that is a block of a pool. -/
theorem exists_release_release {k : Pool} (hg : g.InUse k a) {n m : ℕ}
    (htodo : todo = List.replicate n .read ++ .release :: (List.replicate m .read ++ [.release])) :
    -- alone: the second release fails the assertion
    (∃ s, (ownershipRun g a todo held).Reachable s ∧ s.failed = true) ∧
    -- with another thread in between: the second release frees what that thread was given, and
    -- the block is given to somebody else a second time
    ∃ s, (ownershipRun g a todo held).Reachable s ∧ s.failed = false ∧ s.stolen = true ∧
      s.held = [a + sizeofMemoryBlock, a + sizeofMemoryBlock] ++ held := by
  obtain ⟨b₀, hstart⟩ := exists_reads (n := n) .init htodo
  obtain ⟨g₁, hfree, hg₁⟩ := hg.freeMem
  have hfirst := Reachable.release hstart rfl hfree
  constructor
  · obtain ⟨b₁, hread⟩ := exists_reads (n := m) hfirst rfl
    obtain ⟨r, hr, -⟩ := hg₁.handedOut.freeMem
    refine ⟨_, Reachable.release hread rfl hr, ?_⟩
    simp [State.release, hg₁.not_freeAssert]
  · obtain ⟨nSize, hsize, hk⟩ := MemoryMgr.exists_szAlloc k
    obtain ⟨g₂, halloc, hg₂⟩ := hg₁.allocMem (fun _ => none) hsize hk
    obtain ⟨b₁, hread⟩ := exists_reads (n := m) (Reachable.alloc hfirst halloc) rfl
    obtain ⟨g₃, hfree', hg₃⟩ := hg₂.freeMem
    have hsecond := Reachable.release hread rfl hfree'
    obtain ⟨g₄, halloc', -⟩ := hg₃.allocMem (fun _ => none) hsize hk
    refine ⟨_, Reachable.alloc hsecond halloc', ?_, ?_, rfl⟩
    · simp [State.release, hg.freeAssert, hg₂.freeAssert, ownershipRun]
    · simp [State.release]

/-- The task for the message in the block `a` can come to its end, and it keeps to the rules
whatever other threads do. -/
def TaskOwns (c : CellClient) (msg : List UInt8) (g : MemoryMgr) (a : ℕ) (held : List ℕ) : Prop :=
  ∃ r, CellServer.sendTask c msg = some r ∧
    (∃ s, (ownershipRun g a r.accesses held).Reachable s ∧ s.todo = []) ∧
    ∀ s, (ownershipRun g a r.accesses held).Reachable s → Kept s

theorem released_eq_two {c : CellClient} {msg : List UInt8} {r : SendTaskResult}
    (hr : CellServer.sendTask c msg = some r)
    (hs : (ownershipRun g a r.accesses held).Reachable s) (hdone : s.todo = []) :
    s.released = 2 := by
  obtain ⟨n, m, haccesses⟩ := accesses_of_sendTask hr
  have hcount := released_add_count hs
  rw [hdone, haccesses] at hcount
  simpa [List.count_append, List.count_replicate] using hcount

theorem not_taskOwns (c : CellClient) (msg : List UInt8) (g : MemoryMgr) (a : ℕ)
    (held : List ℕ) : ¬ TaskOwns c msg g a held := by
  rintro ⟨r, hr, ⟨s, hs, hdone⟩, hkept⟩
  have hone := (hkept s hs).done hdone
  rw [released_eq_two hr hs hdone] at hone
  cases hone

/-- **No message is released once.**  Whatever the message, the send buffer and the memory, a
task that comes to its end has released the message twice.  If the message is a block of a
pool, the second release fails the assertion in `freeMemory` when nothing happens in between.
When another thread is given the block in between, the second release takes it away again
unnoticed, and the next thread that allocates is given the same block. -/
theorem message_released_twice (c : CellClient) (msg : List UInt8) (g : MemoryMgr) (a : ℕ)
    (held : List ℕ) :
    ¬ TaskOwns c msg g a held ∧
    ∀ r, CellServer.sendTask c msg = some r →
      (∀ s, (ownershipRun g a r.accesses held).Reachable s → s.todo = [] → s.released = 2) ∧
      (g.HandedOut a → ∃ s, (ownershipRun g a r.accesses held).Reachable s ∧ s.todo = []) ∧
      ∀ k, g.InUse k a →
        (∃ s, (ownershipRun g a r.accesses held).Reachable s ∧ s.failed = true) ∧
        ∃ s, (ownershipRun g a r.accesses held).Reachable s ∧ s.failed = false ∧
          s.stolen = true ∧
          s.held = [a + sizeofMemoryBlock, a + sizeofMemoryBlock] ++ held := by
  refine ⟨not_taskOwns c msg g a held, fun r hr => ⟨fun s => released_eq_two hr,
    fun ha => exists_done .init ha, fun k hg => ?_⟩⟩
  obtain ⟨n, m, haccesses⟩ := accesses_of_sendTask hr
  exact exists_release_release hg haccesses

/-! ### The reply to a logout -/

/-- The bytes of a `LoginOutResult` with result 1. -/
def loginOutResult : List UInt8 := [8, 0, 3, 0, 1, 0, 0, 0]

/-- A client whose send buffer is empty. -/
def newClient : CellClient := .new (.replicate _ 0) (.replicate _ 0) 7

/-- The reply is accepted; it is the first block the memory manager hands out. -/
theorem sendTask_loginOutResult :
    ∃ g r, (MemoryMgr.new fun _ => ⟨0, 0, none, none, false⟩).allocMem (fun _ => some 4096) 8 =
        some (g, some (4096 + sizeofMemoryBlock)) ∧ g.InUse .mem_64 4096 ∧
      CellServer.sendTask newClient loginOutResult = some r ∧
      r.accesses = [.read, .read, .release, .read, .release] := by
  obtain ⟨g, halloc, hg⟩ : ∃ g : MemoryMgr,
      (MemoryMgr.new fun _ => ⟨0, 0, none, none, false⟩).allocMem (fun _ => some 4096) 8 =
        some (g, some (4096 + sizeofMemoryBlock)) ∧ g.InUse .mem_64 4096 :=
    MemoryMgr.allocMem_first rfl rfl (by decide) (by decide)
  have hvalid : newClient.sendBuff.Valid := CellBuffer.valid_new _ (by decide)
  have hlen : dataLength loginOutResult = 8 := by decide
  have hlong : (8 : ℤ) ≤ loginOutResult.length := by decide
  obtain ⟨b, hpush, -⟩ := hvalid.push_of_fits (by decide) hlong (by decide)
  refine ⟨g, ⟨{ newClient with sendBuff := b }, [.read, .read, .release, .read, .release]⟩, halloc,
    hg, ?_, rfl⟩
  rw [CellServer.sendTask, CellClient.sendData, hlen, hpush]
  rfl

theorem message_released_twice_loginOutResult :
    ∃ g r s, CellServer.sendTask newClient loginOutResult = some r ∧
      (ownershipRun g 4096 r.accesses []).Reachable s ∧ s.failed = false ∧ s.stolen = true ∧
      s.held = [4096 + sizeofMemoryBlock, 4096 + sizeofMemoryBlock] := by
  obtain ⟨g, r, -, hg, hr, -⟩ := sendTask_loginOutResult
  obtain ⟨-, s, hs, hfailed, hstolen, hheld⟩ :=
    ((message_released_twice newClient loginOutResult g 4096 []).2 r hr).2.2 _ hg
  exact ⟨g, r, s, hr, hs, hfailed, hstolen, hheld⟩

/-- The reply to a logout is accepted, read behind its first release and released again. -/
theorem loginOutResult_not_owned :
    ∃ g r, (MemoryMgr.new fun _ => ⟨0, 0, none, none, false⟩).allocMem (fun _ => some 4096) 8 =
        some (g, some (4096 + sizeofMemoryBlock)) ∧
      CellServer.sendTask newClient loginOutResult = some r ∧
      r.accesses = [.read, .read, .release, .read, .release] ∧
      ¬ TaskOwns newClient loginOutResult g 4096 [] := by
  obtain ⟨g, r, halloc, -, hr, haccesses⟩ := sendTask_loginOutResult
  exact ⟨g, r, halloc, hr, haccesses, not_taskOwns _ _ _ _ _⟩

end Ownership
end EasyTcpServer
