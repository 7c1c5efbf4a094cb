import EasyTcpServer.Client.SendData
import EasyTcpServer.Client.Sockets
import EasyTcpServer.Message.Messages
import Mathlib.Algebra.GroupWithZero.Nat
import Mathlib.Data.Finset.Card
import Mathlib.Data.Fintype.Basic

/-!
# The load test

`main` of the test program starts `tCount` threads, each of which makes and connects a share of
`cCount` clients, waits for the others, and then sends one request after the other over each of
its clients.  Meanwhile `main` prints once a second what two counters say and sets them to zero.

The machine has the threads of `send_Thread`, the thread of `cmd_flag` and `main`, in any order.
The clients and their sockets are those of `Client.Sockets`.  An `onRun` of a client is as many
steps as it handles messages, and the accesses of `main` to the counters are one step each.

* `send_Thread` is given a pointer to the flag, and tests the pointer: `whileFlag`.
* What `login` holds besides its header is whatever lies in memory; the loop that would fill it
  has no turn.  It is a parameter.
* A print divides the counters by the time that has passed; only what it reads is kept.
* The counters are `int`s, which are counted up modulo 2^32.
* A word that does not go into the buffer of `cmd_flag` is left out.
* That `main` returns ends the program.
-/

namespace EasyTcpServer

open Client (Process)

namespace LoadTest

/-- Where a thread is in `send_Thread`; the number is that of the loop over its clients. -/
inductive Loc where
  /-- Not started. -/
  | unborn
  /-- In the loop with `new`. -/
  | new (n : ℕ)
  /-- In the loop with `Connect`. -/
  | connect (n : ℕ)
  /-- At `readyCount++`. -/
  | ready
  /-- At the loop that waits for the others. -/
  | wait
  /-- At `while (flag)`. -/
  | loop
  /-- In the loop over the clients, at `SendData`. -/
  | send (n : ℕ)
  /-- At `onRun`. -/
  | run (n : ℕ)
  /-- In the loop of `RecvData`. -/
  | turn (n : ℕ)
  /-- At `sendCount++`. -/
  | count (n : ℕ)
  /-- Behind `while (flag)`, at `Close_sock`. -/
  | close (n : ℕ)
  /-- At `delete`. -/
  | delete (n : ℕ)
  | done
  deriving DecidableEq, Repr

/-- Where `main` is. -/
inductive MainLoc where
  /-- It has started this many threads. -/
  | start (i : ℕ)
  /-- At the start of the thread of `cmd_flag`. -/
  | startCmd
  /-- At the loop that waits for the threads. -/
  | wait
  /-- At `while (flag)`. -/
  | loop
  /-- In the call of `printf`, whose arguments are read in any order. -/
  | print (sendRead recvRead : Option (BitVec 32))
  /-- At `sendCount = 0`. -/
  | clearSend (sendRead recvRead : BitVec 32)
  /-- At `recvCount = 0`. -/
  | clearRecv (recvRead : BitVec 32)
  | returned
  deriving DecidableEq, Repr

/-- Where the thread of `cmd_flag` is. -/
inductive CmdLoc where
  | unborn
  | reading
  | done
  deriving DecidableEq, Repr

/-- What is read of a counter before it has been counted up more than `n` times. -/
def ReadBy (n : ℕ) (read : BitVec 32) : Prop := ∃ m ≤ n, read = BitVec.ofNat 32 m

/-- A counter, with the record of what was done with it. -/
structure Counter where
  value : BitVec 32
  /-- How often it was counted up. -/
  total : ℕ
  /-- How often since it was set to zero. -/
  counted : ℕ
  /-- For each time that it was set to zero, what had been read to be printed, and how often it
  had been counted up. -/
  cleared : List (BitVec 32 × ℕ)
  deriving DecidableEq, Repr

namespace Counter

def new : Counter := ⟨0, 0, 0, []⟩

variable (c : Counter)

def add (n : ℕ) : Counter :=
  { c with value := c.value + BitVec.ofNat 32 n, total := c.total + n, counted := c.counted + n }

/-- It is set to zero, after `read` was printed. -/
def clear (read : BitVec 32) : Counter :=
  { c with value := 0, counted := 0, cleared := c.cleared ++ [(read, c.counted)] }

/-- What was counted is there or was cleared, and a print has shown what it was at some time
before it was cleared. -/
structure Law : Prop where
  value : c.value = BitVec.ofNat 32 c.counted
  total : c.total = c.counted + (c.cleared.map Prod.snd).sum
  printed : ∀ p ∈ c.cleared, ReadBy p.2 p.1

variable {c}

theorem exists_add : ∃ n, c = c.add n := by
  refine ⟨0, ?_⟩
  rw [add]
  exact congrArg (fun v => { c with value := v }) (BitVec.add_zero c.value).symm

theorem law_new : new.Law := ⟨rfl, rfl, fun _ hp => absurd hp List.not_mem_nil⟩

theorem Law.readBy (h : c.Law) : ReadBy c.counted c.value := ⟨c.counted, le_rfl, h.value⟩

theorem Law.add (h : c.Law) (n : ℕ) : (c.add n).Law := by
  refine ⟨?_, ?_, h.printed⟩
  · show c.value + BitVec.ofNat 32 n = BitVec.ofNat 32 (c.counted + n)
    rw [h.value, BitVec.ofNat_add]
  · show c.total + n = c.counted + n + (c.cleared.map Prod.snd).sum
    rw [h.total, Nat.add_right_comm]

theorem Law.clear (h : c.Law) {read : BitVec 32} (hread : ReadBy c.counted read) :
    (c.clear read).Law := by
  refine ⟨rfl, ?_, fun p hp => ?_⟩
  · show c.total = 0 + ((c.cleared ++ [(read, c.counted)]).map Prod.snd).sum
    rw [h.total, List.map_append, List.sum_append, List.map_singleton, List.sum_singleton]
    omega
  · rcases List.mem_append.mp hp with hp | hp
    · exact h.printed p hp
    · rw [List.mem_singleton.mp hp]
      exact hread

/-- A counter that was counted up less than 2^31 times between two resets has shown no more than
that. -/
theorem Law.toInt_le (h : c.Law) {p : BitVec 32 × ℕ} (hp : p ∈ c.cleared) (hlt : p.2 < 2 ^ 31) :
    0 ≤ p.1.toInt ∧ p.1.toInt ≤ p.2 := by
  obtain ⟨m, hm, hread⟩ := h.printed p hp
  have hmod : m % 2 ^ 32 = m := Nat.mod_eq_of_lt (by omega)
  have hint : p.1.toInt = m := by
    rw [hread, BitVec.toInt_eq_toNat_of_lt (by rw [BitVec.toNat_ofNat, hmod]; omega),
      BitVec.toNat_ofNat, hmod]
  omega

end Counter

structure State (tCount : ℕ) where
  /-- The clients, by their places in the array; none where the array was not written. -/
  process : Process ℕ
  readyCount : ℕ
  sendCount : Counter
  recvCount : Counter
  flag : Bool
  main : MainLoc
  cmd : CmdLoc
  threads : Fin tCount → Loc
  /-- The clients for which `Connect` has returned. -/
  tried : List ℕ
  /-- The clients for which `SendData` was called, in order. -/
  requests : List ℕ

/-- What the environment decides in a step of a thread. -/
inductive Env where
  | tau
  | construct (startup : ℤ) (sock : Socket)
  | connect (startup : ℤ) (sock : Socket) (success : Bool)
  /-- What `send` reports. -/
  | sendData (r : ℤ)
  | onRun (ready : Option (Option Recv))
  deriving DecidableEq, Repr

inductive Act (tCount : ℕ) where
  /-- A step of `main`: in its second loop, whether a second has passed; in `printf`, whether
  `sendCount` is read. -/
  | main (choice : Bool)
  /-- The thread of `cmd_flag` reads a word. -/
  | cmd (buf : String)
  /-- A step of a thread of `send_Thread`. -/
  | thread (k : Fin tCount) (i : Env)
  deriving DecidableEq, Repr

section Step

variable {tCount : ℕ} (cCount : ℕ) (login : Login) (s : State tCount) (k : Fin tCount)

/-- `begin`. -/
def first : ℕ := k * (cCount / tCount)

/-- `end`. -/
def last : ℕ := (k + 1) * (cCount / tCount)

/-- The condition of `while (flag)` in `send_Thread`, where `flag` is a pointer. -/
def whileFlag (flag : Option Bool) : Bool := flag.isSome

/-- The thread comes to a place. -/
def State.goto (l : Loc) : State tCount := { s with threads := Function.update s.threads k l }

/-- A method of client `n` is called, and the thread comes to a place. -/
def State.client (n : ℕ) (i : Client.Act) (l : Loc) : Option (State tCount) :=
  (s.process.step (.call n i)).map fun p => { s.goto k l with process := p }

/-- How many messages a turn of the loop of `RecvData` has handed to `onNetMsg`. -/
def State.handled (n : ℕ) (p : Process ℕ) : ℕ :=
  (p.clients n).elim 0 (fun c => c.recv.delivered.length) -
    (s.process.clients n).elim 0 fun c => c.recv.delivered.length

/-- A step of a thread that is at a place in `send_Thread`. -/
def threadStep : Loc → Env → Option (State tCount)
  | .new n, .construct startup sock =>
    if n < last cCount k then
      (s.process.step (.construct n startup sock)).map fun p =>
        { s.goto k (.new (n + 1)) with process := p }
    else none
  | .new n, .tau =>
    if n < last cCount k then none else some (s.goto k (.connect (first cCount k)))
  | .connect n, .connect startup sock success =>
    if n < last cCount k then
      (s.client k n (.connect startup sock success) (.connect (n + 1))).map fun t =>
        { t with tried := t.tried ++ [n] }
    else none
  | .connect n, .tau => if n < last cCount k then none else some (s.goto k .ready)
  | .ready, .tau => some { s.goto k .wait with readyCount := s.readyCount + 1 }
  | .wait, .tau => some (if s.readyCount < tCount then s else s.goto k .loop)
  | .loop, .tau =>
    some (s.goto k (if whileFlag (some s.flag) then .send (first cCount k)
      else .close (first cCount k)))
  | .send n, .sendData r =>
    if n < last cCount k then
      (s.process.clients n).bind fun c =>
        if c.SendLegal (Message.login login).toBytes r then
          some { s.goto k (.run n) with requests := s.requests ++ [n] }
        else none
    else none
  | .send n, .tau => if n < last cCount k then none else some (s.goto k .loop)
  | .run n, .onRun ready => s.client k n (.onRun ready) (.turn n)
  | .turn n, .tau =>
    (s.process.clients n).bind fun c =>
      if c.recv.phase = .idle then some (s.goto k (.count n))
      else
        (s.client k n .turn (.turn n)).map fun t =>
          { t with recvCount := t.recvCount.add (s.handled n t.process) }
  | .count n, .tau => some { s.goto k (.send (n + 1)) with sendCount := s.sendCount.add 1 }
  | .close n, .tau =>
    if n < last cCount k then s.client k n .closeSock (.delete n) else some (s.goto k .done)
  | .delete n, .tau =>
    (s.process.step (.destroy n)).map fun p => { s.goto k (.close (n + 1)) with process := p }
  | _, _ => none

/-- A step of `main` that is at a place. -/
def mainStep : MainLoc → Bool → Option (State tCount)
  | .start i, _ =>
    if h : i < tCount then
      some { s.goto ⟨i, h⟩ (.new (first cCount ⟨i, h⟩)) with main := .start (i + 1) }
    else some { s with main := .startCmd }
  | .startCmd, _ => some { s with main := .wait, cmd := .reading }
  | .wait, _ => some (if s.readyCount < tCount then s else { s with main := .loop })
  | .loop, elapsed =>
    some { s with
      main := if s.flag then (if elapsed then .print none none else .loop) else .returned }
  | .print none recvRead, true => some { s with main := .print (some s.sendCount.value) recvRead }
  | .print sendRead none, false => some { s with main := .print sendRead (some s.recvCount.value) }
  | .print (some sendRead) (some recvRead), _ =>
    some { s with main := .clearSend sendRead recvRead }
  | .print _ _, _ => none
  | .clearSend sendRead recvRead, _ =>
    some { s with main := .clearRecv recvRead, sendCount := s.sendCount.clear sendRead }
  | .clearRecv recvRead, _ =>
    some { s with main := .loop, recvCount := s.recvCount.clear recvRead }
  | .returned, _ => none

/-- The bytes of the buffer of `cmd_flag`. -/
def cmdBufSize : ℕ := 128

/-- A word that `cmd_flag` has read. -/
def cmdStep (buf : String) : CmdLoc → Option (State tCount)
  | .reading => some (if buf = "exit" then { s with flag := false, cmd := .done } else s)
  | _ => none

def step : Act tCount → Option (State tCount)
  | .main choice => mainStep cCount s s.main choice
  | .cmd buf =>
    if s.main = .returned ∨ cmdBufSize ≤ buf.utf8ByteSize then none else cmdStep s buf s.cmd
  | .thread k i =>
    if s.main = .returned then none else threadStep cCount login s k (s.threads k) i

end Step

end LoadTest

/-- The program. -/
def loadTest (tCount cCount : ℕ) (login : Login) :
    Machine (LoadTest.State tCount) (LoadTest.Act tCount) where
  init :=
    ⟨(Client.process ℕ).init, 0, .new, .new, true, .start 0, .unborn, fun _ => .unborn, [], []⟩
  step := LoadTest.step cCount login

namespace LoadTest

variable {tCount cCount : ℕ} {s : State tCount} {k j : Fin tCount} {n : ℕ} {l : Loc}

/-! ## The shares -/

/-- Client `n` is one of the thread's. -/
def Share (cCount : ℕ) (k : Fin tCount) (n : ℕ) : Prop := first cCount k ≤ n ∧ n < last cCount k

theorem first_le_last : first cCount k ≤ last cCount k :=
  Nat.mul_le_mul_right _ (Nat.le_succ _)

/-- A client has one thread. -/
theorem Share.unique (hk : Share cCount k n) (hj : Share cCount j n) : k = j :=
  Fin.ext ((Nat.div_eq_of_lt_le hk.1 hk.2).symm.trans (Nat.div_eq_of_lt_le hj.1 hj.2))

theorem Share.lt (hk : Share cCount k n) : n < tCount * (cCount / tCount) :=
  hk.2.trans_le (Nat.mul_le_mul_right _ k.isLt)

/-- The clients that have a thread are the first ones. -/
theorem exists_share (h : n < tCount * (cCount / tCount)) : ∃ k : Fin tCount, Share cCount k n := by
  refine ⟨⟨n / (cCount / tCount), Nat.div_lt_of_lt_mul (by rwa [Nat.mul_comm])⟩, ?_, ?_⟩
  · exact Nat.div_mul_le_self _ _
  · have hpos : 0 < cCount / tCount := by
      rcases Nat.eq_zero_or_pos (cCount / tCount) with hzero | hpos
      · rw [hzero, Nat.mul_zero] at h
        exact absurd h (Nat.not_lt_zero n)
      · exact hpos
    show n < (n / (cCount / tCount) + 1) * (cCount / tCount)
    rw [Nat.add_mul, Nat.one_mul]
    exact Nat.lt_div_mul_add hpos

/-! ## What the places say -/

/-- The thread has made client `n` of its share. -/
def Made (n : ℕ) : Loc → Prop
  | .unborn => False
  | .new m => n < m
  | _ => True

/-- It has called `Connect` for it. -/
def Tried (n : ℕ) : Loc → Prop
  | .unborn | .new _ => False
  | .connect m => n < m
  | _ => True

/-- It has counted `readyCount` up. -/
def Arrived : Loc → Prop
  | .unborn | .new _ | .connect _ | .ready => False
  | _ => True

/-- It does not wait for the others any more. -/
def Past : Loc → Prop
  | .unborn | .new _ | .connect _ | .ready | .wait => False
  | _ => True

/-- It is behind its main loop. -/
def Behind : Loc → Prop
  | .close _ | .delete _ | .done => True
  | _ => False

/-- It has sent a request that it has not counted. -/
def InRound : Loc → Prop
  | .run _ | .turn _ | .count _ => True
  | _ => False

/-- How many requests it has sent over client `m` in the current round. -/
def sentTo (m : ℕ) : Loc → ℕ
  | .send n => if m < n then 1 else 0
  | .run n | .turn n | .count n => if m ≤ n then 1 else 0
  | _ => 0

/-- The requests over a thread's clients are those of `r` rounds and of the current one. -/
def Round (cCount : ℕ) (k : Fin tCount) (requests : List ℕ) (l : Loc) (r : ℕ) : Prop :=
  ∀ m, Share cCount k m → requests.count m = r + sentTo m l

section Round

variable {requests : List ℕ} {r : ℕ}

theorem Round.send (h : Round cCount k requests (.send n) r) :
    Round cCount k (requests ++ [n]) (.run n) r := by
  intro m hm
  have hcount := h m hm
  rw [List.count_append, List.count_singleton, hcount]
  simp only [sentTo, beq_iff_eq]
  split_ifs <;> omega

/-- The loop over the clients is through. -/
theorem Round.next (h : Round cCount k requests (.send n) r) (hlast : last cCount k ≤ n) :
    Round cCount k requests .loop (r + 1) := by
  intro m hm
  rw [h m hm, sentTo, if_pos (hm.2.trans_le hlast)]
  rfl

end Round

instance : DecidablePred Arrived := fun l => by
  cases l <;> unfold Arrived <;> infer_instance

instance : DecidablePred InRound := fun l => by
  cases l <;> unfold InRound <;> infer_instance

/-- How many threads are at such a place. -/
def State.threadsAt (s : State tCount) (P : Loc → Prop) [DecidablePred P] : ℕ :=
  (Finset.univ.filter fun k => P (s.threads k)).card

/-- The number is in the thread's range. -/
def InRange (cCount : ℕ) (k : Fin tCount) : Loc → Prop
  | .new m | .connect m => first cCount k ≤ m ∧ m ≤ last cCount k
  | .send m => first cCount k ≤ m
  | .run m | .turn m | .count m => Share cCount k m
  | _ => True

theorem Past.arrived (h : Past l) : Arrived l := by
  cases l <;> first | exact h | trivial

theorem InRound.past (h : InRound l) : Past l := by
  cases l <;> first | exact h.elim | trivial

theorem InRound.not_behind (h : InRound l) : ¬ Behind l := by
  cases l <;> first | exact h.elim | exact id

end LoadTest
end EasyTcpServer
