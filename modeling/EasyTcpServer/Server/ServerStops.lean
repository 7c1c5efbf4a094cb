import EasyTcpServer.Server.CellServer
import EasyTcpServer.Thread.CloseReturns

/-!
# That the thread of a server stops

When its flag is down, the thread of a server goes through the rest of the pass it is in, and
through `ClearClients`.  As long as `select` does not fail, it never calls `Exit`, and its steps
are those of callbacks that cannot.

* `rank` says how much a worker has left to do.  The lists that it works on are bounded by the
  size of a descriptor set and by the number of clients (`Fits`), and so is the rank (`rank_le`).
* `stops`: every step lowers the rank, except for the loop of `recvData`, whose turns are as many
  as there are messages in the buffer.
-/

namespace EasyTcpServer
namespace CellServer

open CellThread (Worker Stops)

/-! ## The thread, when `select` does not fail -/

/-- The callbacks of the thread, as long as `select` does not fail. -/
def selectWorks : Callbacks CellServer Loc ClearLoc Env :=
  { callbacks with
    onRun := fun isRun d l i => if i = .select none then none else d.onRun isRun l i }

variable {d d' : CellServer} {l : Loc} {i : Env} {n : Next Loc} {isRun : Bool}

theorem selectWorks_onRun (h : selectWorks.onRun isRun d l i = some (d', n)) :
    i ≠ .select none ∧ d.onRun isRun l i = some (d', n) :=
  Option.ite_none_left_eq_some.mp h

theorem selectWorks_exitFree : selectWorks.ExitFree := by
  intro b d l i d' l' h
  obtain ⟨hi, h⟩ := selectWorks_onRun h
  exact hi (onRun_exit h)

/-- How many clients there are, also in the queue. -/
def load (d : CellServer) : ℕ := d.clients.size + d.clientsBuff.length

theorem length_fdSet_le {fds : List Socket} (h : fds.length ≤ fdSetSize) (k : Socket) :
    (fdSet fds k).length ≤ fdSetSize := by
  unfold fdSet
  split_ifs with hfull
  · exact h
  · rw [List.length_append, List.length_singleton]
    omega

theorem length_foldl_fdSet_le {fds : List Socket} (h : fds.length ≤ fdSetSize)
    (socks : List Socket) : (socks.foldl fdSet fds).length ≤ fdSetSize := by
  induction socks generalizing fds with
  | nil => exact h
  | cons k socks ih => exact ih (length_fdSet_le h k)

theorem length_gather_le (h : d.fdReadBak.length ≤ fdSetSize) :
    d.gather.fdReadBak.length ≤ fdSetSize := by
  unfold gather
  split_ifs
  · exact length_foldl_fdSet_le (Nat.zero_le _) _
  · exact h

theorem size_foldl_insert_le (m : Std.TreeMap Socket ClientPtr) (cs : List ClientPtr) :
    (cs.foldl (fun m c => m.insert c.sockfd c) m).size ≤ m.size + cs.length := by
  induction cs generalizing m with
  | nil => exact Nat.le_refl _
  | cons c cs ih =>
    have hinsert : (m.insert c.sockfd c).size ≤ m.size + 1 := Std.TreeMap.size_insert_le
    have hrest := ih (m.insert c.sockfd c)
    rw [List.foldl_cons, List.length_cons]
    omega

/-- What `OnClientLeave` does to the number of clients. -/
theorem size_onClientLeave (d : CellServer) (c : ClientPtr) (k : Socket) :
    (d.onClientLeave c k).clients.size ≤ d.clients.size ∧
      d.clients.size ≤ (d.onClientLeave c k).clients.size + 1 :=
  ⟨Std.TreeMap.size_erase_le, Std.TreeMap.size_le_size_erase⟩

/-- The lists the thread works on are not longer than the sets of descriptors, and `CheckTime` has
no more to visit than there are clients. -/
def Fits (d : CellServer) : Worker Loc ClearLoc → Prop
  | .onRun (.select fds) => d.fdReadBak.length ≤ fdSetSize ∧ fds.length ≤ fdSetSize
  | .onRun (.read fdRead fdWrite fdExc) | .onRun (.handle _ fdRead fdWrite fdExc) =>
    d.fdReadBak.length ≤ fdSetSize ∧ fdRead.length ≤ fdSetSize ∧ fdWrite.length ≤ fdSetSize ∧
      fdExc.length ≤ fdSetSize
  | .onRun (.write fdWrite fdExc) => d.fdReadBak.length ≤ fdSetSize ∧
      fdWrite.length ≤ fdSetSize ∧ (fdExc.getD []).length ≤ fdSetSize
  | .onRun (.checkTime keys) => d.fdReadBak.length ≤ fdSetSize ∧ keys.length ≤ d.clients.size
  | .onDestory (.buff _ n) => d.fdReadBak.length ≤ fdSetSize ∧ n ≤ d.clientsBuff.length
  | _ => d.fdReadBak.length ≤ fdSetSize

/-- How much the worker has left to do. -/
def rank (d : CellServer) : Worker Loc ClearLoc → ℕ
  | .onCreate => d.clientsBuff.length + 5
  | .onRun .loop | .onRun .broken => d.clientsBuff.length + 4
  | .onRun .test => 4 * fdSetSize + d.load + 13
  | .onRun .merge => 4 * fdSetSize + d.load + 12
  | .onRun .gather => 4 * fdSetSize + d.load + 11
  | .onRun (.select fds) => 4 * fds.length + d.load + 10
  | .onRun (.read fdRead fdWrite fdExc) =>
    2 * fdRead.length + fdWrite.length + fdExc.length + d.load + 9
  | .onRun (.handle _ fdRead fdWrite fdExc) =>
    2 * fdRead.length + fdWrite.length + fdExc.length + d.load + 10
  | .onRun (.write fdWrite (some fdExc)) => fdWrite.length + fdExc.length + d.load + 8
  | .onRun (.write fdWrite none) => fdWrite.length + d.load + 7
  | .onRun (.checkTime keys) => keys.length + d.clientsBuff.length + 5
  | .onDestory .map => d.clientsBuff.length + 3
  | .onDestory (.buff k n) => n - k + 2
  | .wakeup => 1
  | .exiting _ | .done => 0

/-- What a step of `onRun` with this label does: the loop of `recvData` may go on. -/
def paid : Env → ℕ
  | .msg => 0
  | _ => 1

/-- What a step of `onRun` leaves for the rest. -/
structure Onward (isRun : Bool) (d : CellServer) (l : Loc) (i : Env) (d' : CellServer)
    (n : Next Loc) : Prop where
  fits : Fits d' (.ofRun .map n)
  load : d'.load ≤ d.load
  rank : isRun = false → rank d' (.ofRun .map n) + paid i ≤ rank d (.onRun l)

/-- The client may leave or stay. -/
theorem load_onClientLeave (d : CellServer) (es : List Event) (c : ClientPtr) (k : Socket) :
    ((d.record es).onClientLeave c k).load ≤ d.load :=
  Nat.add_le_add_right (size_onClientLeave (d.record es) c k).1 _

theorem readData_onward {sockfd : Socket} {fdRead fdWrite fdExc : List Socket}
    (hfits : Fits d (.onRun (.read (sockfd :: fdRead) fdWrite fdExc)))
    (h : d.readData sockfd fdRead fdWrite fdExc i = some (d', n)) :
    Onward isRun d (.read (sockfd :: fdRead) fdWrite fdExc) i d' n := by
  obtain ⟨hbak, hread, hwrite, hexc⟩ := hfits
  rw [List.length_cons] at hread
  have hread' : fdRead.length ≤ fdSetSize := by omega
  cases i with
  | tau =>
    simp only [readData, Option.ite_none_right_eq_some, Option.some.injEq, Prod.mk.injEq] at h
    obtain ⟨-, rfl, rfl⟩ := h
    refine ⟨⟨hbak, hread', hwrite, hexc⟩, le_rfl, fun _ => ?_⟩
    simp only [Worker.ofRun, rank, paid, List.length_cons]
    omega
  | recv nLen =>
    obtain ⟨c, -, h⟩ := Option.map_eq_some_iff.mp h
    split_ifs at h with hlen <;> cases h
    · have hload := load_onClientLeave d [.recv c] c sockfd
      refine ⟨⟨hbak, hread', hwrite, hexc⟩, hload, fun _ => ?_⟩
      simp only [Worker.ofRun, rank, paid, List.length_cons]
      omega
    · refine ⟨⟨hbak, hread', hwrite, hexc⟩, le_rfl, fun _ => ?_⟩
      simp only [Worker.ofRun, rank, paid, List.length_cons]
      show _ + d.load + _ + _ ≤ _
      omega
  | _ => cases h

theorem writeData_onward {sockfd : Socket} {fdWrite : List Socket} {fdExc : Option (List Socket)}
    (hfits : Fits d (.onRun (.write (sockfd :: fdWrite) fdExc)))
    (h : d.writeData sockfd fdWrite fdExc i = some (d', n)) :
    Onward isRun d (.write (sockfd :: fdWrite) fdExc) i d' n := by
  obtain ⟨hbak, hwrite, hexc⟩ := hfits
  rw [List.length_cons] at hwrite
  have hwrite' : fdWrite.length ≤ fdSetSize := by omega
  cases i with
  | tau =>
    simp only [writeData, Option.ite_none_right_eq_some, Option.some.injEq, Prod.mk.injEq] at h
    obtain ⟨-, rfl, rfl⟩ := h
    refine ⟨⟨hbak, hwrite', hexc⟩, le_rfl, fun _ => ?_⟩
    cases fdExc <;>
      · simp only [Worker.ofRun, rank, paid, List.length_cons]
        omega
  | send ret =>
    obtain ⟨c, -, h⟩ := Option.map_eq_some_iff.mp h
    split_ifs at h with hret <;> cases h
    · have hload := load_onClientLeave d [.send c] c sockfd
      refine ⟨⟨hbak, hwrite', hexc⟩, hload, fun _ => ?_⟩
      cases fdExc <;>
        · simp only [Worker.ofRun, rank, paid, List.length_cons]
          omega
    · refine ⟨⟨hbak, hwrite', hexc⟩, le_rfl, fun _ => ?_⟩
      cases fdExc <;>
        · simp only [Worker.ofRun, rank, paid, List.length_cons]
          show _ + d.load + _ + _ ≤ _
          omega
  | _ => cases h

theorem checkTime_onward {sockfd : Socket} {keys : List Socket}
    (hfits : Fits d (.onRun (.checkTime (sockfd :: keys))))
    (h : d.checkTime sockfd keys i = some (d', n)) :
    Onward isRun d (.checkTime (sockfd :: keys)) i d' n := by
  obtain ⟨hbak, hkeys⟩ := hfits
  rw [List.length_cons] at hkeys
  have hkeys' : keys.length ≤ d.clients.size := by omega
  cases i with
  | tau =>
    simp only [checkTime, Option.ite_none_right_eq_some, Option.some.injEq, Prod.mk.injEq] at h
    obtain ⟨-, rfl, rfl⟩ := h
    refine ⟨⟨hbak, hkeys'⟩, le_rfl, fun _ => ?_⟩
    simp only [Worker.ofRun, rank, paid, List.length_cons]
    omega
  | heart dead =>
    obtain ⟨c, -, h⟩ := Option.map_eq_some_iff.mp h
    cases dead <;> cases h
    · refine ⟨⟨hbak, hkeys'⟩, le_rfl, fun _ => ?_⟩
      simp only [Worker.ofRun, rank, paid, List.length_cons]
      show _ + d.clientsBuff.length + _ + _ ≤ _
      omega
    · have hsize :
          d.clients.size ≤ ((d.record [.heart c]).onClientLeave c sockfd).clients.size + 1 :=
        (size_onClientLeave (d.record [.heart c]) c sockfd).2
      refine ⟨⟨hbak, by omega⟩, load_onClientLeave d [.heart c] c sockfd, fun _ => ?_⟩
      simp only [Worker.ofRun, rank, paid, List.length_cons]
      show _ + d.clientsBuff.length + _ + _ ≤ _
      omega
  | _ => cases h

theorem load_merge_le (d : CellServer) : d.merge.load ≤ d.load := by
  have hsize := size_foldl_insert_le d.clients d.clientsBuff
  show _ + 0 ≤ _
  exact hsize

theorem load_gather (d : CellServer) : d.gather.load = d.load := by
  unfold load
  rw [(same_gather d).clients, (same_gather d).clientsBuff]

/-- **Every step of `onRun`** brings the thread on, but for the loop of `recvData`. -/
theorem onRun_onward (hfits : Fits d (.onRun l)) (hi : i ≠ .select none)
    (h : d.onRun isRun l i = some (d', n)) : Onward isRun d l i d' n := by
  cases l with
  | loop =>
    cases i <;> cases h
    refine ⟨by cases isRun <;> exact hfits, le_rfl, fun hdown => ?_⟩
    subst hdown
    exact le_rfl
  | test =>
    cases i <;> cases h
    refine ⟨by split_ifs <;> exact hfits, le_rfl, fun _ => ?_⟩
    split_ifs <;>
      · simp only [Worker.ofRun, rank, paid]
        omega
  | merge =>
    cases i <;> cases h
    have hload := load_merge_le d
    refine ⟨hfits, hload, fun _ => ?_⟩
    simp only [Worker.ofRun, rank, paid]
    omega
  | gather =>
    cases i with
    | tau =>
      rw [onRun] at h
      split_ifs at h <;> cases h
      · refine ⟨hfits, le_rfl, fun _ => ?_⟩
        simp only [Worker.ofRun, rank, paid, load]
        omega
      · have hlen := length_gather_le (d := d) hfits
        refine ⟨⟨hlen, hlen⟩, (load_gather d).le, fun _ => ?_⟩
        simp only [Worker.ofRun, rank, paid, load_gather]
        omega
    | _ => cases h
  | select fds =>
    cases i with
    | select ready =>
      rcases ready with _ | ⟨fdRead, fdWrite, fdExc⟩
      · exact absurd rfl hi
      · rw [onRun, Option.ite_none_right_eq_some] at h
        obtain ⟨⟨hread, hwrite, hexc⟩, h⟩ := h
        cases h
        have hread := hread.length_le
        have hwrite := hwrite.length_le
        have hexc := hexc.length_le
        obtain ⟨hbak, hfds⟩ := hfits
        refine ⟨⟨hbak, by omega, by omega, by omega⟩, le_rfl, fun _ => ?_⟩
        simp only [Worker.ofRun, rank, paid]
        omega
    | _ => cases h
  | broken =>
    cases i <;> cases h
    exact ⟨hfits, le_rfl, fun _ => le_rfl⟩
  | read fdRead fdWrite fdExc =>
    cases fdRead with
    | nil =>
      cases i <;> cases h
      obtain ⟨hbak, -, hwrite, hexc⟩ := hfits
      refine ⟨⟨hbak, hwrite, hexc⟩, le_rfl, fun _ => ?_⟩
      simp only [Worker.ofRun, rank, paid, List.length_nil]
      omega
    | cons sockfd fdRead => exact readData_onward hfits h
  | handle c fdRead fdWrite fdExc =>
    cases i <;> cases h
    · refine ⟨hfits, le_rfl, fun _ => ?_⟩
      simp only [Worker.ofRun, rank, paid]
      omega
    · exact ⟨hfits, le_rfl, fun _ => le_rfl⟩
  | write fdWrite fdExc =>
    cases fdWrite with
    | nil =>
      obtain ⟨hbak, -, hexc⟩ := hfits
      cases fdExc <;> cases i <;> cases h
      · refine ⟨⟨hbak, Std.TreeMap.length_keys.le⟩, le_rfl, fun _ => ?_⟩
        simp only [Worker.ofRun, rank, paid, Std.TreeMap.length_keys, load, List.length_nil]
        omega
      · refine ⟨⟨hbak, hexc, Nat.zero_le _⟩, le_rfl, fun _ => ?_⟩
        simp only [Worker.ofRun, rank, paid, List.length_nil]
        omega
    | cons sockfd fdWrite => exact writeData_onward hfits h
  | checkTime keys =>
    cases keys with
    | nil =>
      cases i <;> cases h
      refine ⟨hfits.1, le_rfl, fun _ => ?_⟩
      simp only [Worker.ofRun, rank, paid, List.length_nil]
      omega
    | cons sockfd keys => exact checkTime_onward hfits h

/-- **Every step of `ClearClients`** brings it on. -/
theorem clearClients_onward {l : ClearLoc} {o : Option ClearLoc} (hfits : Fits d (.onDestory l))
    (h : d.clearClients l i = some (d', o)) :
    Fits d' (.ofDestory o) ∧ d'.load ≤ d.load ∧
      rank d' (.ofDestory o) + paid i ≤ rank d (.onDestory l) := by
  have hi : i = .tau := by
    cases l <;> cases i <;> first | rfl | cases h
  subst hi
  cases clearClients_cases h with
  | map =>
    have hload : d.clearMap.load ≤ d.load := Nat.add_le_add_right (Nat.zero_le _) _
    exact ⟨⟨hfits, le_rfl⟩, hload, le_rfl⟩
  | @next k n c hlt hc =>
    refine ⟨hfits, le_rfl, ?_⟩
    simp only [Worker.ofDestory, rank, paid]
    omega
  | dangling hlt hc => exact ⟨hfits.1, le_rfl, Nat.le_add_left _ _⟩
  | buff hle => exact ⟨hfits.1, Nat.add_le_add_left (Nat.zero_le _) _, Nat.le_add_left _ _⟩

theorem fits_addClient {w : Worker Loc ClearLoc} (h : Fits d w) (c : ClientPtr) (moves : Bool) :
    Fits (d.addClient c moves) w := by
  cases w with
  | onRun l => cases l <;> exact h
  | onDestory l =>
    cases l with
    | map => exact h
    | buff k n =>
      refine ⟨h.1, h.2.trans ?_⟩
      show _ ≤ (d.clientsBuff ++ [c]).length
      rw [List.length_append]
      omega
  | _ => exact h

theorem load_addClient (d : CellServer) (c : ClientPtr) (moves : Bool) :
    (d.addClient c moves).load = d.load + 1 := by
  show _ + (d.clientsBuff ++ [c]).length = _
  rw [List.length_append]
  exact (Nat.add_assoc _ _ _).symm

theorem rank_addClient (d : CellServer) (w : Worker Loc ClearLoc) (c : ClientPtr) (moves : Bool) :
    rank (d.addClient c moves) w ≤ rank d w + 1 := by
  have hload := load_addClient d c moves
  have hbuff : (d.addClient c moves).clientsBuff.length = d.clientsBuff.length + 1 :=
    List.length_append
  cases w with
  | onRun l =>
    cases l with
    | write fdWrite fdExc =>
      cases fdExc <;>
        · simp only [rank, hload]
          omega
    | _ =>
      simp only [rank, hload, hbuff]
      omega
  | onDestory l =>
    cases l <;>
      · simp only [rank, hbuff]
        omega
  | _ =>
    simp only [rank, hbuff]
    omega

/-- How much a worker has left to do is bounded by the number of clients. -/
theorem rank_le {w : Worker Loc ClearLoc} (h : Fits d w) :
    rank d w ≤ 4 * fdSetSize + d.load + 13 := by
  have hbuff : d.clientsBuff.length ≤ d.load := Nat.le_add_left _ _
  have hsize : d.clients.size + d.clientsBuff.length = d.load := rfl
  cases w with
  | onRun l =>
    cases l with
    | select fds =>
      obtain ⟨-, hfds⟩ := h
      simp only [rank]
      omega
    | read fdRead fdWrite fdExc | handle c fdRead fdWrite fdExc =>
      obtain ⟨-, hread, hwrite, hexc⟩ := h
      simp only [rank]
      omega
    | write fdWrite fdExc =>
      obtain ⟨-, hwrite, hexc⟩ := h
      cases fdExc with
      | none =>
        simp only [rank]
        omega
      | some fdExc =>
        rw [Option.getD_some] at hexc
        simp only [rank]
        omega
    | checkTime keys =>
      obtain ⟨-, hkeys⟩ := h
      simp only [rank]
      omega
    | _ =>
      simp only [rank]
      omega
  | onDestory l =>
    cases l with
    | map =>
      simp only [rank]
      omega
    | buff k n =>
      obtain ⟨-, hn⟩ := h
      simp only [rank]
      omega
  | _ =>
    simp only [rank]
    omega

/-- Wherever the thread is in `onRun`, it can come on, also when `select` does not fail. -/
theorem exists_paid (d : CellServer) (l : Loc) :
    ∃ i r, i ≠ .select none ∧ d.onRun false l i = some r ∧ 0 < paid i := by
  have hother (hselect : ∀ fds, l ≠ .select fds) (hhandle : ∀ c r w e, l ≠ .handle c r w e) :
      ∃ i r, i ≠ .select none ∧ d.onRun false l i = some r ∧ 0 < paid i := by
    obtain ⟨i, ⟨d', n⟩, h⟩ := d.exists_onRun false l
    refine ⟨i, _, ?_, h, ?_⟩
    · rintro rfl
      cases onRun_cases h with
      | idle hi =>
        rcases hi with hi | ⟨sets, hi⟩ <;> cases hi
      | selectFails => exact hselect _ rfl
    · cases onRun_cases h with
      | idle hi =>
        rcases hi with rfl | ⟨sets, rfl⟩ <;> exact Nat.zero_lt_one
      | msg => exact absurd rfl (hhandle _ _ _ _)
      | _ => exact Nat.zero_lt_one
  cases l with
  | select fds =>
    refine ⟨.select (some ([], [], [])), (d, .goto (.read [] [] [])), by simp, ?_, Nat.zero_lt_one⟩
    rw [onRun, if_pos ⟨List.nil_subperm, List.nil_subperm, List.nil_subperm⟩]
  | handle c fdRead fdWrite fdExc => exact ⟨.tau, _, by simp, rfl, Nat.zero_lt_one⟩
  | _ => exact hother (by simp) (by simp)

/-- With `_isRun` down the thread of a server comes to its end. -/
def stops : Stops selectWorks where
  Fits := Fits
  rank := rank
  paid := paid
  gain _ := 1
  fits_spawn h := h
  fits_create h := h
  fits_run h hstep :=
    (onRun_onward h (selectWorks_onRun hstep).1 (selectWorks_onRun hstep).2).fits
  fits_destroy h hstep := (clearClients_onward h hstep).1
  fits_wakeup h := h
  fits_external {d d' w i} h hext := by
    cases i with
    | addClient c moves =>
      obtain rfl := Option.some.inj hext
      exact fits_addClient h c moves
    | _ => cases hext
  rank_create := Nat.lt_succ_self _
  rank_run h hstep :=
    (onRun_onward h (selectWorks_onRun hstep).1 (selectWorks_onRun hstep).2).rank rfl
  rank_destroy h hstep := (clearClients_onward h hstep).2.2
  rank_wakeup := Nat.zero_lt_one
  rank_external {d d' w i} hext := by
    cases i with
    | addClient c moves =>
      obtain rfl := Option.some.inj hext
      exact rank_addClient d w c moves
    | _ => cases hext
  exists_run d l := by
    obtain ⟨i, r, hi, hstep, hpaid⟩ := exists_paid d l
    exact ⟨i, r.1, r.2, (if_neg hi).trans hstep, hpaid⟩
  exists_destroy d l := by
    obtain ⟨i, ⟨d', o⟩, hclear⟩ := d.exists_clearClients l
    have hi : i = .tau := by
      cases l <;> cases i <;> first | rfl | cases hclear
    exact ⟨i, d', o, hclear, hi ▸ Nat.zero_lt_one⟩

section Thread

variable {s t : CellThread.State CellServer Loc ClearLoc} {a : CellThread.Act Env}

theorem step_selectWorks : CellThread.step selectWorks s a = some t ↔
    (∀ j, a ≠ .run j (.select none)) ∧ CellThread.step callbacks s a = some t := by
  cases a with
  | run j i =>
    rw [CellThread.step_run, CellThread.step_run]
    constructor
    · rintro ⟨l, d, n, hw, hrun, ht⟩
      obtain ⟨hi, hrun⟩ := selectWorks_onRun hrun
      exact ⟨fun k hk => hi (CellThread.Act.run.inj hk).2, l, d, n, hw, hrun, ht⟩
    · rintro ⟨hi, l, d, n, hw, hrun, ht⟩
      have hselect : i ≠ .select none := by
        rintro rfl
        exact hi j rfl
      exact ⟨l, d, n, hw, (if_neg hselect).trans hrun, ht⟩
  | _ => exact ⟨fun h => ⟨by simp, h⟩, fun h => h.2⟩

/-- Only another thread adds a client. -/
theorem load_step (hs : stops.Good s) (h : CellThread.step selectWorks s a = some t) :
    t.data.load ≤ s.data.load + stops.addedBy a := by
  have hfits : Fits s.data s.current := hs.fits
  have hcur := CellThread.currentStep hs.quiet h
  cases hcur with
  | control _ hdata | close _ hdata | spawn _ _ hdata =>
    rw [hdata]
    exact Nat.le_add_right _ _
  | @external i _ hext =>
    cases i with
    | addClient c moves =>
      rw [← Option.some.inj hext]
      exact (load_addClient s.data c moves).le
    | _ => cases hext
  | move _ _ _ _ hcases =>
    refine le_trans ?_ (Nat.le_add_right _ _)
    rcases hcases with ⟨-, -, hdata⟩ | ⟨i, l, n, hl, hrun, -⟩ | ⟨i, l, o, hl, hclear, -⟩ |
      ⟨-, -, hdata⟩
    · rw [hdata]
    · rw [hl] at hfits
      obtain ⟨hi, hrun⟩ := selectWorks_onRun hrun
      exact (onRun_onward hfits hi hrun).load
    · rw [hl] at hfits
      exact (clearClients_onward hfits hclear).2.1
    · rw [hdata]

end Thread
end CellServer

end EasyTcpServer
