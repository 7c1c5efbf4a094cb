import Mathlib.Data.List.Perm.Subperm
import EasyTcpServer.Buffer.CellClient
import EasyTcpServer.Thread.CellThread

/-!
# `Cell_Server`

The thread of a `Cell_Server` runs `onRun` until it is told to stop and then
`ClearClients`.  Both are modelled step by step, as the callbacks of a `Cell_Thread`, on the
data of the server: the map `_clients`, the buffer queue `_clientsBuff` that other threads
push new clients to, and the descriptor sets.

The loops over the descriptor sets are those of the platform with `fd_array`: a pass looks
every descriptor of its set up in `_clients`, and one that is not there is passed over.

* The locked merge and the body of `addClient` are one step each, because both hold
  `_mutex`.  The test `!_clientsBuff.empty()` in front of the merge is made without it.
* `ClearClients` works on `_clientsBuff` without `_mutex`.  Its walk over the queue deletes
  one client in a step, and the `clear()` behind the walk is a step of its own.  The end of
  the walk is fixed when it starts.  A `push_back` that moves the elements of the vector
  while the walk is under way leaves the walk with dangling iterators (`undefined`).
* What `recv`, `send`, `select` and the heartbeat report is in the labels.

`log` records in order the callbacks of `NetEvent` and everything else the thread does to a
client.  `OnNetLeave` has no argument; the record says for which client it is called.
`_max_sock` is the first argument of `select`, which this platform ignores, and `_oldTime`
goes into the heartbeat only; both are left out.
-/

namespace EasyTcpServer

open CellThread (Worker)

/-- `FD_SETSIZE`. -/
def fdSetSize : ℕ := 2506

/-- `FD_SET`: a descriptor is added if it is new and there is room. -/
def fdSet (fds : List Socket) (sockfd : Socket) : List Socket :=
  if sockfd ∈ fds ∨ fdSetSize ≤ fds.length then fds else fds ++ [sockfd]

/-- A client as the server thread handles it: the pointer, and of the object behind it the
running number and the socket. -/
structure ClientPtr where
  pClient : ℕ
  id : ℕ
  sockfd : Socket
  deriving DecidableEq, Repr

/-- What the thread does to a client. -/
inductive Event where
  /-- `OnNetJoin`. -/
  | join (c : ClientPtr)
  /-- `RecvData`. -/
  | recv (c : ClientPtr)
  /-- `onRecvCount`. -/
  | recvCount (c : ClientPtr)
  /-- `onNetMsg`. -/
  | msg (c : ClientPtr)
  /-- `sendDataReal`. -/
  | send (c : ClientPtr)
  /-- `checkHeart`. -/
  | heart (c : ClientPtr)
  /-- `OnNetLeave`. -/
  | leave (c : ClientPtr)
  /-- `delete` in `OnClientLeave`. -/
  | delete (c : ClientPtr)
  /-- `delete` in `ClearClients`. -/
  | clear (c : ClientPtr)
  deriving DecidableEq, Repr

/-- The data of a server. -/
structure CellServer where
  clients : Std.TreeMap Socket ClientPtr
  clientsBuff : List ClientPtr
  clientChange : Bool
  fdReadBak : List Socket
  /-- While `ClearClients` is in its loop over the queue: how many clients it has deleted, and
  after how many it ends. -/
  walk : Option (ℕ × ℕ)
  /-- That loop has used an iterator that points nowhere. -/
  undefined : Bool
  log : List Event

namespace CellServer

/-- Where the thread is in `onRun`. -/
inductive Loc where
  /-- At the head of the loop of `onRun`. -/
  | loop
  /-- At the test whether the buffer queue is empty. -/
  | test
  /-- At the merge. -/
  | merge
  /-- At the test whether there is a client, and the building of the descriptor sets. -/
  | gather
  /-- At `select`, given these descriptors. -/
  | select (fds : List Socket)
  /-- Behind the call of `Exit`. -/
  | broken
  /-- In `readData`; the two sets for `writeData` are waiting. -/
  | read (fdRead fdWrite fdExc : List Socket)
  /-- In the loop of `recvData` for a client. -/
  | handle (c : ClientPtr) (fdRead fdWrite fdExc : List Socket)
  /-- In `writeData`; there may be another call of it to come. -/
  | write (fdWrite : List Socket) (fdExc : Option (List Socket))
  /-- In `CheckTime`, with the keys still to visit. -/
  | checkTime (keys : List Socket)
  deriving DecidableEq, Repr

/-- Where the thread is in `ClearClients`. -/
inductive ClearLoc where
  /-- At the loop over `_clients`. -/
  | map
  /-- In the loop over `_clientsBuff`: it has deleted `k` clients and ends after `n`. -/
  | buff (k n : ℕ)
  deriving DecidableEq, Repr

/-- What the environment decides in a step. -/
inductive Env where
  /-- Nothing. -/
  | tau
  /-- What `select` reports: the ready sets, each some of the descriptors in any order, or an
  error. -/
  | select (ready : Option (List Socket × List Socket × List Socket))
  /-- What `RecvData` returns. -/
  | recv (nLen : ℤ)
  /-- Another message is in the receive buffer. -/
  | msg
  /-- What `sendDataReal` returns. -/
  | send (ret : ℤ)
  /-- What `checkHeart` returns. -/
  | heart (dead : Bool)
  /-- Another thread calls `addClient`, and the vector is moved or not. -/
  | addClient (pClient : ClientPtr) (moves : Bool)
  deriving DecidableEq, Repr

/-- A server without clients. -/
def new : CellServer := ⟨∅, [], true, [], none, false, []⟩

variable (d : CellServer)

/-- The record of some events. -/
def record (es : List Event) : CellServer := { d with log := d.log ++ es }

/-- The locked merge. -/
def merge : CellServer :=
  { d with
    clients := d.clientsBuff.foldl (fun m c => m.insert c.sockfd c) d.clients
    clientsBuff := []
    clientChange := true
    log := d.log ++ d.clientsBuff.map .join }

/-- The descriptor sets. -/
def gather : CellServer :=
  if d.clientChange then
    { d with
      clientChange := false
      fdReadBak := (d.clients.toList.map fun p => p.2.sockfd).foldl fdSet [] }
  else d

/-- `OnClientLeave(pClient)`, and the erasing of the key `sockfd` that follows it in every
place it is called from. -/
def onClientLeave (c : ClientPtr) (sockfd : Socket) : CellServer :=
  { d with
    clients := d.clients.erase sockfd
    clientChange := true
    log := d.log ++ [.leave c, .delete c] }

/-- A step of `readData`: one descriptor, up to the loop of `recvData` if there is one. -/
def readData (sockfd : Socket) (fdRead fdWrite fdExc : List Socket) :
    Env → Option (CellServer × Next Loc)
  | .tau => if d.clients[sockfd]? = none then some (d, .goto (.read fdRead fdWrite fdExc)) else none
  | .recv nLen =>
    (d.clients[sockfd]?).map fun c =>
      if nLen < 0 then
        ((d.record [.recv c]).onClientLeave c sockfd, .goto (.read fdRead fdWrite fdExc))
      else (d.record [.recv c, .recvCount c], .goto (.handle c fdRead fdWrite fdExc))
  | _ => none

/-- A step of `writeData`: one descriptor. -/
def writeData (sockfd : Socket) (fdWrite : List Socket) (fdExc : Option (List Socket)) :
    Env → Option (CellServer × Next Loc)
  | .tau => if d.clients[sockfd]? = none then some (d, .goto (.write fdWrite fdExc)) else none
  | .send ret =>
    (d.clients[sockfd]?).map fun c =>
      if ret = -1 then ((d.record [.send c]).onClientLeave c sockfd, .goto (.write fdWrite fdExc))
      else (d.record [.send c], .goto (.write fdWrite fdExc))
  | _ => none

/-- A step of `CheckTime`: one key. -/
def checkTime (sockfd : Socket) (keys : List Socket) : Env → Option (CellServer × Next Loc)
  | .tau => if d.clients[sockfd]? = none then some (d, .goto (.checkTime keys)) else none
  | .heart dead =>
    (d.clients[sockfd]?).map fun c =>
      if dead then ((d.record [.heart c]).onClientLeave c sockfd, .goto (.checkTime keys))
      else (d.record [.heart c], .goto (.checkTime keys))
  | _ => none

/-- A step of `onRun`. -/
def onRun (isRun : Bool) : Loc → Env → Option (CellServer × Next Loc)
  | .loop, .tau => some (d, if isRun then .goto .test else .ret)
  | .test, .tau => some (d, .goto (if d.clientsBuff.isEmpty then .gather else .merge))
  | .merge, .tau => some (d.merge, .goto .gather)
  | .gather, .tau =>
    if d.clients.isEmpty then some (d, .goto .loop)
    else some (d.gather, .goto (.select d.gather.fdReadBak))
  | .select _, .select none => some (d, .exit .broken)
  | .select fds, .select (some (fdRead, fdWrite, fdExc)) =>
    if fdRead.Subperm fds ∧ fdWrite.Subperm fds ∧ fdExc.Subperm fds then
      some (d, .goto (.read fdRead fdWrite fdExc))
    else none
  | .broken, .tau => some (d, .ret)
  | .read [] fdWrite fdExc, .tau => some (d, .goto (.write fdWrite (some fdExc)))
  | .read (sockfd :: fdRead) fdWrite fdExc, i => d.readData sockfd fdRead fdWrite fdExc i
  | .handle c fdRead fdWrite fdExc, .msg =>
    some (d.record [.msg c], .goto (.handle c fdRead fdWrite fdExc))
  | .handle _ fdRead fdWrite fdExc, .tau => some (d, .goto (.read fdRead fdWrite fdExc))
  | .write [] (some fdExc), .tau => some (d, .goto (.write fdExc none))
  | .write [] none, .tau => some (d, .goto (.checkTime d.clients.keys))
  | .write (sockfd :: fdWrite) fdExc, i => d.writeData sockfd fdWrite fdExc i
  | .checkTime [], .tau => some (d, .goto .loop)
  | .checkTime (sockfd :: keys), i => d.checkTime sockfd keys i
  | _, _ => none

/-- The loop over `_clients` in `ClearClients`, and the `clear()` behind it. -/
def clearMap : CellServer :=
  { d with
    clients := ∅
    walk := some (0, d.clientsBuff.length)
    log := d.log ++ d.clients.toList.map fun p => .clear p.2 }

/-- A step of the loop over `_clientsBuff`. -/
def clearNext (k n : ℕ) : CellServer × Option ClearLoc :=
  match d.clientsBuff[k]? with
  | some c => ({ d.record [.clear c] with walk := some (k + 1, n) }, some (.buff (k + 1) n))
  | none => ({ d with undefined := true }, none)

/-- The `clear()` behind that loop. -/
def clearBuff : CellServer := { d with clientsBuff := [], walk := none }

/-- A step of `ClearClients`. -/
def clearClients : ClearLoc → Env → Option (CellServer × Option ClearLoc)
  | .map, .tau => some (d.clearMap, some (.buff 0 d.clientsBuff.length))
  | .buff k n, .tau => some (if k < n then d.clearNext k n else (d.clearBuff, none))
  | _, _ => none

/-- The body of `addClient`. -/
def addClient (pClient : ClientPtr) (moves : Bool) : CellServer :=
  { d with
    clientsBuff := d.clientsBuff ++ [pClient]
    undefined := d.undefined || (moves && d.walk.any fun w => w.1 < w.2) }

/-- The callbacks of the server's thread, and `addClient` as the step of other threads. -/
def callbacks : Callbacks CellServer Loc ClearLoc Env where
  runStart := .loop
  onRun isRun d := d.onRun isRun
  destroyStart := .map
  onDestory := clearClients
  external d
    | .addClient pClient moves => some (d.addClient pClient moves)
    | _ => none

/-- The clients are where they were, and nothing has been done to one. -/
structure Same (d d' : CellServer) : Prop where
  clients : d'.clients = d.clients
  clientsBuff : d'.clientsBuff = d.clientsBuff
  walk : d'.walk = d.walk
  undefined : d'.undefined = d.undefined
  log : d'.log = d.log

theorem Same.refl (d : CellServer) : Same d d := ⟨rfl, rfl, rfl, rfl, rfl⟩

theorem getElem?_new (k : Socket) : new.clients[k]? = none := Std.TreeMap.getElem?_emptyc

theorem getElem?_clearMap (d : CellServer) (k : Socket) : d.clearMap.clients[k]? = none :=
  Std.TreeMap.getElem?_emptyc

theorem getElem?_onClientLeave (d : CellServer) (c : ClientPtr) (sockfd k : Socket) :
    (d.onClientLeave c sockfd).clients[k]? = if sockfd = k then none else d.clients[k]? := by
  simp only [onClientLeave, Std.TreeMap.getElem?_erase, Nat.compare_eq_eq]

theorem same_gather (d : CellServer) : Same d d.gather := by
  unfold gather
  split_ifs
  · exact ⟨rfl, rfl, rfl, rfl, rfl⟩
  · exact .refl d

/-- The step that follows neither enters the loop of `recvData` nor calls `Exit`. -/
def Passes : Next Loc → Prop
  | .goto (.handle _ _ _ _) | .exit _ => False
  | _ => True

/-- What a step of `onRun` can do, and where it leads. -/
inductive OnRun (d : CellServer) : Loc → Env → CellServer → Next Loc → Prop where
  /-- Nothing happens to a client. -/
  | idle {l : Loc} {i : Env} {d' : CellServer} {n : Next Loc} :
      i = .tau ∨ (∃ sets, i = .select (some sets)) → Same d d' → Passes n → OnRun d l i d' n
  | selectFails {fds : List Socket} : OnRun d (.select fds) (.select none) d (.exit .broken)
  | merge : OnRun d .merge .tau d.merge (.goto .gather)
  | recv {k : Socket} {c : ClientPtr} {nLen : ℤ} {fdRead fdWrite fdExc : List Socket} :
      d.clients[k]? = some c → ¬ nLen < 0 →
      OnRun d (.read (k :: fdRead) fdWrite fdExc) (.recv nLen) (d.record [.recv c, .recvCount c])
        (.goto (.handle c fdRead fdWrite fdExc))
  | recvFails {k : Socket} {c : ClientPtr} {nLen : ℤ} {fdRead fdWrite fdExc : List Socket} :
      d.clients[k]? = some c → nLen < 0 →
      OnRun d (.read (k :: fdRead) fdWrite fdExc) (.recv nLen)
        ((d.record [.recv c]).onClientLeave c k) (.goto (.read fdRead fdWrite fdExc))
  | msg {c : ClientPtr} {fdRead fdWrite fdExc : List Socket} :
      OnRun d (.handle c fdRead fdWrite fdExc) .msg (d.record [.msg c])
        (.goto (.handle c fdRead fdWrite fdExc))
  | send {k : Socket} {c : ClientPtr} {ret : ℤ} {fdWrite : List Socket}
      {fdExc : Option (List Socket)} :
      d.clients[k]? = some c → ret ≠ -1 →
      OnRun d (.write (k :: fdWrite) fdExc) (.send ret) (d.record [.send c])
        (.goto (.write fdWrite fdExc))
  | sendFails {k : Socket} {c : ClientPtr} {fdWrite : List Socket}
      {fdExc : Option (List Socket)} :
      d.clients[k]? = some c →
      OnRun d (.write (k :: fdWrite) fdExc) (.send (-1))
        ((d.record [.send c]).onClientLeave c k) (.goto (.write fdWrite fdExc))
  | heart {k : Socket} {c : ClientPtr} {keys : List Socket} :
      d.clients[k]? = some c →
      OnRun d (.checkTime (k :: keys)) (.heart false) (d.record [.heart c])
        (.goto (.checkTime keys))
  | heartFails {k : Socket} {c : ClientPtr} {keys : List Socket} :
      d.clients[k]? = some c →
      OnRun d (.checkTime (k :: keys)) (.heart true)
        ((d.record [.heart c]).onClientLeave c k) (.goto (.checkTime keys))

variable {d} {d' : CellServer} {l : Loc} {n : Next Loc} {sockfd : Socket} {i : Env}

theorem OnRun.tau (hsame : Same d d') (hn : Passes n) : OnRun d l .tau d' n :=
  .idle (.inl rfl) hsame hn

theorem readData_cases {fdRead fdWrite fdExc : List Socket}
    (h : d.readData sockfd fdRead fdWrite fdExc i = some (d', n)) :
    OnRun d (.read (sockfd :: fdRead) fdWrite fdExc) i d' n := by
  cases i with
  | tau =>
    simp only [readData, Option.ite_none_right_eq_some, Option.some.injEq, Prod.mk.injEq] at h
    obtain ⟨-, rfl, rfl⟩ := h
    exact .tau (.refl d) trivial
  | recv nLen =>
    obtain ⟨c, hc, h⟩ := Option.map_eq_some_iff.mp h
    split_ifs at h with hlen <;> cases h
    · exact .recvFails hc hlen
    · exact .recv hc hlen
  | _ => cases h

theorem writeData_cases {fdWrite : List Socket} {fdExc : Option (List Socket)}
    (h : d.writeData sockfd fdWrite fdExc i = some (d', n)) :
    OnRun d (.write (sockfd :: fdWrite) fdExc) i d' n := by
  cases i with
  | tau =>
    simp only [writeData, Option.ite_none_right_eq_some, Option.some.injEq, Prod.mk.injEq] at h
    obtain ⟨-, rfl, rfl⟩ := h
    exact .tau (.refl d) trivial
  | send ret =>
    obtain ⟨c, hc, h⟩ := Option.map_eq_some_iff.mp h
    split_ifs at h with hret <;> cases h
    · subst hret
      exact .sendFails hc
    · exact .send hc hret
  | _ => cases h

theorem checkTime_cases {keys : List Socket}
    (h : d.checkTime sockfd keys i = some (d', n)) :
    OnRun d (.checkTime (sockfd :: keys)) i d' n := by
  cases i with
  | tau =>
    simp only [checkTime, Option.ite_none_right_eq_some, Option.some.injEq, Prod.mk.injEq] at h
    obtain ⟨-, rfl, rfl⟩ := h
    exact .tau (.refl d) trivial
  | heart dead =>
    obtain ⟨c, hc, h⟩ := Option.map_eq_some_iff.mp h
    cases dead <;> cases h
    · exact .heart hc
    · exact .heartFails hc
  | _ => cases h

/-- **What a step of `onRun` can do.** -/
theorem onRun_cases {isRun : Bool} (h : d.onRun isRun l i = some (d', n)) :
    OnRun d l i d' n := by
  cases l with
  | loop | test =>
    cases i <;> cases h
    split_ifs <;> exact .tau (.refl d) trivial
  | merge =>
    cases i <;> cases h
    exact .merge
  | gather =>
    cases i with
    | tau =>
      rw [onRun] at h
      split_ifs at h <;> cases h
      · exact .tau (.refl d) trivial
      · exact .tau (same_gather d) trivial
    | _ => cases h
  | select fds =>
    cases i with
    | select ready =>
      rcases ready with _ | ⟨fdRead, fdWrite, fdExc⟩
      · cases h
        exact .selectFails
      · rw [onRun, Option.ite_none_right_eq_some] at h
        obtain ⟨-, h⟩ := h
        cases h
        exact .idle (.inr ⟨_, rfl⟩) (.refl d) trivial
    | _ => cases h
  | broken =>
    cases i <;> cases h
    exact .tau (.refl d) trivial
  | read fdRead fdWrite fdExc =>
    cases fdRead with
    | nil =>
      cases i <;> cases h
      exact .tau (.refl d) trivial
    | cons sockfd fdRead => exact readData_cases h
  | handle c fdRead fdWrite fdExc =>
    cases i <;> cases h
    · exact .tau (.refl d) trivial
    · exact .msg
  | write fdWrite fdExc =>
    cases fdWrite with
    | nil =>
      cases fdExc <;> cases i <;> cases h
      · exact .tau (.refl d) trivial
      · exact .tau (.refl d) trivial
    | cons sockfd fdWrite => exact writeData_cases h
  | checkTime keys =>
    cases keys with
    | nil =>
      cases i <;> cases h
      exact .tau (.refl d) trivial
    | cons sockfd keys => exact checkTime_cases h

/-- **The one call of `Exit`**: it is made when `select` fails. -/
theorem onRun_exit {isRun : Bool} {l' : Loc}
    (h : d.onRun isRun l i = some (d', .exit l')) : i = .select none := by
  cases onRun_cases h with
  | idle _ _ hn => exact hn.elim
  | selectFails => rfl

/-- When `select` fails, `Exit` is called. -/
theorem onRun_select_none {isRun : Bool}
    (h : d.onRun isRun l (.select none) = some (d', n)) : n = .exit .broken := by
  cases onRun_cases h with
  | idle hi => rcases hi with hi | ⟨sets, hi⟩ <;> cases hi
  | selectFails => rfl

/-- What a step of `ClearClients` can do. -/
inductive Clear (d : CellServer) : ClearLoc → CellServer → Option ClearLoc → Prop where
  | map : Clear d .map d.clearMap (some (.buff 0 d.clientsBuff.length))
  | next {k n : ℕ} {c : ClientPtr} : k < n → d.clientsBuff[k]? = some c →
      Clear d (.buff k n) { d.record [.clear c] with walk := some (k + 1, n) }
        (some (.buff (k + 1) n))
  | dangling {k n : ℕ} : k < n → d.clientsBuff[k]? = none →
      Clear d (.buff k n) { d with undefined := true } none
  | buff {k n : ℕ} : n ≤ k → Clear d (.buff k n) d.clearBuff none

theorem clearClients_cases {l : ClearLoc} {o : Option ClearLoc}
    (h : d.clearClients l i = some (d', o)) : Clear d l d' o := by
  cases l with
  | map =>
    cases i <;> cases h
    exact .map
  | buff k n =>
    cases i with
    | tau =>
      simp only [clearClients, Option.some.injEq] at h
      split_ifs at h with hlt
      · rw [clearNext] at h
        split at h <;> cases h
        · next c hc => exact .next hlt hc
        · next hc => exact .dangling hlt hc
      · cases h
        exact .buff (not_lt.mp hlt)
    | _ => cases h

variable (d)

/-- Wherever the thread is in `onRun`, there is something it can do next. -/
theorem exists_onRun (isRun : Bool) (l : Loc) : ∃ i r, d.onRun isRun l i = some r := by
  cases l with
  | loop => exact ⟨.tau, _, rfl⟩
  | test => exact ⟨.tau, _, rfl⟩
  | merge => exact ⟨.tau, _, rfl⟩
  | gather =>
    by_cases hempty : d.clients.isEmpty = true
    · exact ⟨.tau, _, if_pos hempty⟩
    · exact ⟨.tau, _, if_neg hempty⟩
  | select fds => exact ⟨.select none, _, rfl⟩
  | broken => exact ⟨.tau, _, rfl⟩
  | read fdRead fdWrite fdExc =>
    cases fdRead with
    | nil => exact ⟨.tau, _, rfl⟩
    | cons sockfd fdRead =>
      cases hfind : d.clients[sockfd]? with
      | none => exact ⟨.tau, _, if_pos hfind⟩
      | some c => exact ⟨.recv 0, _, by rw [onRun, readData, hfind]; rfl⟩
  | handle c fdRead fdWrite fdExc => exact ⟨.tau, _, rfl⟩
  | write fdWrite fdExc =>
    cases fdWrite with
    | nil => cases fdExc <;> exact ⟨.tau, _, rfl⟩
    | cons sockfd fdWrite =>
      cases hfind : d.clients[sockfd]? with
      | none => exact ⟨.tau, _, if_pos hfind⟩
      | some c => exact ⟨.send 0, _, by rw [onRun, writeData, hfind]; rfl⟩
  | checkTime keys =>
    cases keys with
    | nil => exact ⟨.tau, _, rfl⟩
    | cons sockfd keys =>
      cases hfind : d.clients[sockfd]? with
      | none => exact ⟨.tau, _, if_pos hfind⟩
      | some c => exact ⟨.heart false, _, by rw [onRun, checkTime, hfind]; rfl⟩

theorem exists_clearClients (l : ClearLoc) : ∃ i r, d.clearClients l i = some r := by
  cases l <;> exact ⟨.tau, _, rfl⟩

end CellServer
end EasyTcpServer
