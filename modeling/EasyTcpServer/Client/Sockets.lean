import EasyTcpServer.Client.Client
import Mathlib.Data.List.Nodup

/-!
# The sockets of the clients

The test program makes any number of `Client`s, each of which has at most one socket at a time.
`Init_sock` starts Winsock and opens a socket, `Close_sock` closes it and stops Winsock, and
Winsock is the process's own: it counts how often it was started and stopped.  So a client that
closes its socket must not stop Winsock under the others.

The machine below has all clients, each made, used and deleted any number of times, the calls in
any order.  The system reports what it likes, but `socket` does not return a descriptor that is
open.  `WSAStartup` starts Winsock when it returns 0.  `Init_sock` looks for `SOCKET_ERROR` alone
and takes every other error for success, so that Winsock may be stopped more often than it was
started.

* `events`: what a call asks of the system, in order.
* `SocketStep`: a call opens a socket, closes the one there is, does both, or neither.
* `sockets_law`: no socket is lost and none is closed twice; Winsock has been started, or taken
  for started, more often than stopped by the sockets that are open and the calls of `socket` that
  have failed; and so every call was made while it was started, if no error of `WSAStartup` was
  taken for success.
-/

namespace EasyTcpServer
namespace Client

/-- A call to the system. -/
inductive Event where
  /-- `WSAStartup` returns this. -/
  | startup (ret : ℤ)
  | cleanup
  /-- `socket` returns this. -/
  | socket (sock : Socket)
  | closesocket (sock : Socket)
  deriving DecidableEq, Repr

/-! ## What a call asks of the system -/

section Events

variable (c : Client)

def closeSockEvents : List Event :=
  if c.sock ≠ invalidSocket then [.closesocket c.sock, .cleanup] else []

def initSockEvents (startup : ℤ) (sock : Socket) : List Event :=
  .startup startup :: if startup ≠ socketError then c.closeSockEvents ++ [.socket sock] else []

def connectEvents (startup : ℤ) (sock : Socket) : List Event :=
  if c.sock = invalidSocket then c.initSockEvents startup sock else []

def onRunEvents (ready : Option (Option Recv)) : List Event :=
  if c.isRun then
    match ready with
    | none => c.closeSockEvents
    | some none => []
    | some (some o) => if (c.recvData o).recv.phase = .left then c.closeSockEvents else []
  else []

def events : Act → List Event
  | .initSock startup sock => c.initSockEvents startup sock
  | .connect startup sock _ => c.connectEvents startup sock
  | .closeSock => c.closeSockEvents
  | .onRun ready => c.onRunEvents ready
  | .recvData _ | .turn => []

end Events

/-! ## Winsock -/

/-- What the system keeps of the calls. -/
structure Winsock where
  startups : ℕ
  /-- The calls of `WSAStartup` whose error is taken for success. -/
  mistaken : ℕ
  cleanups : ℕ
  /-- The calls of `socket` that have failed. -/
  failed : ℕ
  /-- The sockets that are open. -/
  sockets : List Socket
  deriving DecidableEq, Repr

namespace Winsock

variable (w : Winsock)

def after : Event → Winsock
  | .startup ret =>
    if ret = 0 then { w with startups := w.startups + 1 }
    else if ret = socketError then w
    else { w with mistaken := w.mistaken + 1 }
  | .cleanup => { w with cleanups := w.cleanups + 1 }
  | .socket sock =>
    if sock = invalidSocket then { w with failed := w.failed + 1 }
    else { w with sockets := sock :: w.sockets }
  | .closesocket sock => { w with sockets := w.sockets.erase sock }

/-- What is closed is open. -/
def Open : Event → Prop
  | .closesocket sock => sock ∈ w.sockets
  | _ => True

/-- Winsock is started. -/
def Started : Event → Prop
  | .startup _ => True
  | .cleanup | .socket _ | .closesocket _ => w.cleanups < w.startups

/-- What the system promises: a socket that `socket` returns was not open. -/
def Promised : Event → Prop
  | .socket sock => sock ∉ w.sockets
  | _ => True

instance : (e : Event) → Decidable (w.Promised e)
  | .socket sock => inferInstanceAs (Decidable (sock ∉ w.sockets))
  | .startup _ | .cleanup | .closesocket _ => .isTrue trivial

/-- Calls one behind the other. -/
def afterAll (es : List Event) : Winsock := es.foldl after w

/-- A condition holds of each call when it is made. -/
def Each (P : Winsock → Event → Prop) : Winsock → List Event → Prop
  | _, [] => True
  | w, e :: es => P w e ∧ Each P (w.after e) es

instance decidableEach (P : Winsock → Event → Prop) [∀ w e, Decidable (P w e)] :
    (w : Winsock) → (es : List Event) → Decidable (Each P w es)
  | _, [] => .isTrue trivial
  | w, e :: es =>
    have := decidableEach P (w.after e) es
    inferInstanceAs (Decidable (P w e ∧ Each P (w.after e) es))

variable {w} {P : Winsock → Event → Prop} {es es' : List Event}

theorem afterAll_append : w.afterAll (es ++ es') = (w.afterAll es).afterAll es' :=
  List.foldl_append

theorem each_append : Each P w (es ++ es') ↔ Each P w es ∧ Each P (w.afterAll es) es' := by
  induction es generalizing w with
  | nil => exact (and_iff_right trivial).symm
  | cons e es ih =>
    show P w e ∧ Each P (w.after e) (es ++ es') ↔
      (P w e ∧ Each P (w.after e) es) ∧ Each P ((w.after e).afterAll es) es'
    rw [ih, and_assoc]

theorem mistaken_le_after (e : Event) : w.mistaken ≤ (w.after e).mistaken := by
  unfold after
  split
  · split_ifs
    · exact le_refl _
    · exact le_refl _
    · exact Nat.le_succ _
  · exact le_refl _
  · split_ifs <;> exact le_refl _
  · exact le_refl _

theorem mistaken_le_afterAll : w.mistaken ≤ (w.afterAll es).mistaken := by
  induction es generalizing w with
  | nil => exact le_refl _
  | cons e es ih => exact (mistaken_le_after e).trans ih

end Winsock

/-! ## The process -/

/-- The clients there are, and what they have asked of the system. -/
structure Process (κ : Type*) where
  clients : κ → Option Client
  log : List Event

namespace Process

variable {κ : Type*} [DecidableEq κ]

inductive Act (κ : Type*) where
  /-- `new Client()`. -/
  | construct (k : κ) (startup : ℤ) (sock : Socket)
  /-- A method is called. -/
  | call (k : κ) (i : Client.Act)
  /-- `delete`. -/
  | destroy (k : κ)

/-- What Winsock has come to. -/
def winsock (s : Process κ) : Winsock := Winsock.afterAll ⟨0, 0, 0, 0, []⟩ s.log

/-- The client's next state, and what it asks for. -/
def next (s : Process κ) (k : κ) (c : Option Client) (es : List Event) : Option (Process κ) :=
  if Winsock.Each Winsock.Promised s.winsock es then
    some ⟨Function.update s.clients k c, s.log ++ es⟩
  else none

def step (s : Process κ) : Act κ → Option (Process κ)
  | .construct k startup sock =>
    if (s.clients k).isNone then
      s.next k (some (Client.new.initSock startup sock).2) (Client.new.initSockEvents startup sock)
    else none
  | .call k i =>
    (s.clients k).bind fun c => (client.step c i).bind fun d => s.next k (some d) (c.events i)
  | .destroy k =>
    (s.clients k).bind fun c =>
      if c.recv.phase = .idle then s.next k none c.closeSockEvents else none

end Process

/-- The process with all its clients. -/
def process (κ : Type*) [DecidableEq κ] : Machine (Process κ) (Process.Act κ) where
  init := ⟨fun _ => none, []⟩
  step := Process.step

/-! ## What one call does with the socket -/

section SocketStep

variable {c d : Client}

/-- The socket before and behind a call, and what was asked for. -/
inductive SocketStep : Socket → Socket → List Event → Prop where
  | same (x : Socket) : SocketStep x x []
  | refused (x : Socket) : SocketStep x x [.startup socketError]
  | closed {x : Socket} : x ≠ invalidSocket →
      SocketStep x invalidSocket [.closesocket x, .cleanup]
  | opened {ret : ℤ} (y : Socket) : ret ≠ socketError →
      SocketStep invalidSocket y [.startup ret, .socket y]
  | reopened {ret : ℤ} {x : Socket} (y : Socket) : ret ≠ socketError → x ≠ invalidSocket →
      SocketStep x y [.startup ret, .closesocket x, .cleanup, .socket y]

theorem socketStep_closeSock : SocketStep c.sock c.closeSock.sock c.closeSockEvents := by
  unfold closeSock closeSockEvents
  dsimp only
  split_ifs with h
  · exact .closed h
  · exact .same c.sock

theorem socketStep_initSock (startup : ℤ) (sock : Socket) :
    SocketStep c.sock (c.initSock startup sock).2.sock (c.initSockEvents startup sock) := by
  by_cases hret : startup = socketError
  · rw [initSock, initSockEvents, if_neg (not_not.mpr hret), if_neg (not_not.mpr hret), hret]
    exact .refused c.sock
  · have hsock : (c.initSock startup sock).2.sock = sock := by
      rw [initSock, if_pos hret]
    rw [hsock, initSockEvents, if_pos hret, closeSockEvents]
    split_ifs with h
    · exact .reopened sock hret h
    · rw [not_not.mp h]
      exact .opened sock hret

theorem socketStep_connect (startup : ℤ) (sock : Socket) (success : Bool) :
    SocketStep c.sock (c.connect startup sock success).2.sock (c.connectEvents startup sock) := by
  have hsock : (c.connect startup sock success).2.sock = (c.opened startup sock).sock := by
    unfold connect
    cases success <;> rfl
  rw [hsock, opened, connectEvents]
  split_ifs with h
  · exact socketStep_initSock startup sock
  · exact .same c.sock

theorem socketStep_onRun (ready : Option (Option Recv)) :
    SocketStep c.sock (c.onRun ready).sock (c.onRunEvents ready) := by
  unfold onRun onRunEvents
  split_ifs
  · cases ready with
    | none => exact socketStep_closeSock
    | some q =>
      cases q with
      | none => exact .same c.sock
      | some o =>
        dsimp only
        split_ifs
        · exact socketStep_closeSock (c := (c.recvData o).returned)
        · exact .same c.sock
  · exact .same c.sock

/-- **A call opens a socket, closes the one there is, does both, or neither.** -/
theorem socketStep {i : Act} (h : client.step c i = some d) :
    SocketStep c.sock d.sock (c.events i) := by
  cases i with
  | initSock startup sock =>
    obtain ⟨-, rfl⟩ := Option.ite_none_right_eq_some.mp h |>.imp_right Option.some.inj
    exact socketStep_initSock startup sock
  | connect startup sock success =>
    obtain ⟨-, rfl⟩ := Option.ite_none_right_eq_some.mp h |>.imp_right Option.some.inj
    exact socketStep_connect startup sock success
  | closeSock =>
    obtain ⟨-, rfl⟩ := Option.ite_none_right_eq_some.mp h |>.imp_right Option.some.inj
    exact socketStep_closeSock
  | onRun ready =>
    obtain ⟨-, rfl⟩ := Option.ite_none_right_eq_some.mp h |>.imp_right Option.some.inj
    exact socketStep_onRun ready
  | recvData o =>
    obtain ⟨-, rfl⟩ := Option.ite_none_right_eq_some.mp h |>.imp_right Option.some.inj
    unfold callRecvData
    split_ifs
    · exact .same c.sock
    · exact .same c.sock
  | turn =>
    obtain ⟨-, rfl⟩ := Option.ite_none_right_eq_some.mp h |>.imp_right Option.some.inj
    exact .same c.sock

end SocketStep

/-! ## The sockets of all clients -/

section Holds

variable {κ : Type*} [DecidableEq κ] {held : κ → Socket} {w : Winsock} {k : κ} {x y : Socket}
  {spare : ℕ}

/-- The open sockets are those that the clients hold, each one its own, and Winsock is started, or
taken for started, once for each of them, for each failed call of `socket`, and `spare` times
more. -/
structure Holds (held : κ → Socket) (w : Winsock) (spare : ℕ) : Prop where
  nodup : w.sockets.Nodup
  mem_iff : ∀ x, x ∈ w.sockets ↔ x ≠ invalidSocket ∧ ∃ k, held k = x
  own : ∀ k l, held k = held l → held k ≠ invalidSocket → k = l
  count : w.startups + w.mistaken = w.cleanups + w.sockets.length + w.failed + spare

omit [DecidableEq κ] in
theorem Holds.startup (h : Holds held w spare) {ret : ℤ} (hret : ret ≠ socketError) :
    Holds held (w.after (.startup ret)) (spare + 1) := by
  have hcount := h.count
  rw [Winsock.after]
  split_ifs
  · refine ⟨h.nodup, h.mem_iff, h.own, ?_⟩
    show w.startups + 1 + w.mistaken = w.cleanups + w.sockets.length + w.failed + (spare + 1)
    omega
  · refine ⟨h.nodup, h.mem_iff, h.own, ?_⟩
    show w.startups + (w.mistaken + 1) = w.cleanups + w.sockets.length + w.failed + (spare + 1)
    omega

/-- A client closes its socket. -/
theorem Holds.close (h : Holds held w spare) (hk : held k ≠ invalidSocket) :
    held k ∈ w.sockets ∧ (w.mistaken = 0 → w.cleanups < w.startups) ∧
      Holds (Function.update held k invalidSocket) (w.afterAll [.closesocket (held k), .cleanup])
        spare := by
  have hmem : held k ∈ w.sockets := (h.mem_iff _).mpr ⟨hk, k, rfl⟩
  have hlength := List.length_erase_of_mem hmem
  have hpos := List.length_pos_of_mem hmem
  have hcount := h.count
  refine ⟨hmem, fun hmistaken => by omega, h.nodup.erase _, fun x => ?_, fun l m hlm hl => ?_, ?_⟩
  · show x ∈ w.sockets.erase (held k) ↔ _
    rw [h.nodup.mem_erase_iff, h.mem_iff x]
    constructor
    · rintro ⟨hne, hx, l, rfl⟩
      refine ⟨hx, l, Function.update_of_ne ?_ _ _⟩
      rintro rfl
      exact hne rfl
    · rintro ⟨hx, l, rfl⟩
      by_cases hl : l = k
      · rw [hl, Function.update_self] at hx
        exact absurd rfl hx
      · rw [Function.update_of_ne hl] at hx ⊢
        exact ⟨fun heq => hl (h.own l k heq hx), hx, l, rfl⟩
  · by_cases hlk : l = k
    · rw [hlk, Function.update_self] at hl
      exact absurd rfl hl
    · by_cases hmk : m = k
      · rw [hlm, hmk, Function.update_self] at hl
        exact absurd rfl hl
      · rw [Function.update_of_ne hlk, Function.update_of_ne hmk] at hlm
        rw [Function.update_of_ne hlk] at hl
        exact h.own l m hlm hl
  · show w.startups + w.mistaken =
      w.cleanups + 1 + (w.sockets.erase (held k)).length + w.failed + spare
    omega

/-- A client without a socket calls `socket`. -/
theorem Holds.open (h : Holds held w (spare + 1)) (hk : held k = invalidSocket)
    (hnew : y ∉ w.sockets) :
    (w.mistaken = 0 → w.cleanups < w.startups) ∧
      Holds (Function.update held k y) (w.after (.socket y)) spare := by
  have hcount := h.count
  refine ⟨fun hmistaken => by omega, ?_⟩
  by_cases hy : y = invalidSocket
  · have hsame : Function.update held k y = held := by
      rw [hy, ← hk, Function.update_eq_self]
    rw [hsame, Winsock.after, if_pos hy]
    refine ⟨h.nodup, h.mem_iff, h.own, ?_⟩
    show w.startups + w.mistaken = w.cleanups + w.sockets.length + (w.failed + 1) + spare
    omega
  · have hother {l : κ} (hl : held l ≠ invalidSocket) : l ≠ k ∧ held l ≠ y := by
      refine ⟨fun hlk => hl (hlk ▸ hk), fun hly => hnew ((h.mem_iff y).mpr ⟨hy, l, hly⟩)⟩
    rw [Winsock.after, if_neg hy]
    refine ⟨List.nodup_cons.mpr ⟨hnew, h.nodup⟩, fun x => ?_, fun l m hlm hl => ?_, ?_⟩
    · rw [List.mem_cons, h.mem_iff x]
      constructor
      · rintro (rfl | ⟨hx, l, rfl⟩)
        · exact ⟨hy, k, Function.update_self ..⟩
        · exact ⟨hx, l, Function.update_of_ne (hother hx).1 _ _⟩
      · rintro ⟨hx, l, rfl⟩
        by_cases hl : l = k
        · rw [hl, Function.update_self]
          exact .inl rfl
        · rw [Function.update_of_ne hl] at hx ⊢
          exact .inr ⟨hx, l, rfl⟩
    · by_cases hlk : l = k
      · by_cases hmk : m = k
        · rw [hlk, hmk]
        · rw [hlk, Function.update_self, Function.update_of_ne hmk] at hlm
          exact absurd hlm.symm (hother (hlm ▸ hy)).2
      · rw [Function.update_of_ne hlk] at hl hlm
        by_cases hmk : m = k
        · rw [hmk, Function.update_self] at hlm
          exact absurd hlm (hother hl).2
        · rw [Function.update_of_ne hmk] at hlm
          exact h.own l m hlm hl
    · show w.startups + w.mistaken = w.cleanups + (w.sockets.length + 1) + w.failed + spare
      omega

/-- **A call of a client** closes what is open, keeps the account, and is made while Winsock is
started, if no error was taken for success. -/
theorem Holds.step {es : List Event} (h : Holds held w 0) (hstep : SocketStep (held k) y es)
    (hpromised : Winsock.Each Winsock.Promised w es) :
    Winsock.Each Winsock.Open w es ∧
      ((w.afterAll es).mistaken = 0 → Winsock.Each Winsock.Started w es) ∧
        Holds (Function.update held k y) (w.afterAll es) 0 := by
  generalize hx : held k = x at hstep
  cases hstep with
  | same =>
    rw [← hx, Function.update_eq_self]
    exact ⟨trivial, fun _ => trivial, h⟩
  | refused =>
    rw [← hx, Function.update_eq_self]
    exact ⟨⟨trivial, trivial⟩, fun _ => ⟨trivial, trivial⟩, h⟩
  | closed hne =>
    subst hx
    obtain ⟨hmem, hlt, hclosed⟩ := h.close hne
    exact ⟨⟨hmem, trivial, trivial⟩, fun hzero => ⟨hlt hzero, hlt hzero, trivial⟩, hclosed⟩
  | opened _ hret =>
    obtain ⟨hlt, hopen⟩ := (h.startup hret).open hx hpromised.2.1
    refine ⟨⟨trivial, trivial, trivial⟩, fun hzero => ⟨trivial, hlt ?_, trivial⟩, hopen⟩
    exact Nat.le_zero.mp ((Winsock.mistaken_le_after (.socket y)).trans (Nat.le_of_eq hzero))
  | reopened _ hret hne =>
    subst hx
    obtain ⟨hmem, hlt, hclosed⟩ := (h.startup hret).close hne
    obtain ⟨hlt', hopen⟩ := hclosed.open (Function.update_self ..) hpromised.2.2.2.1
    rw [Function.update_idem] at hopen
    refine ⟨⟨trivial, hmem, trivial, trivial, trivial⟩, fun hzero => ?_, hopen⟩
    have hbefore : (w.after (.startup _)).mistaken = 0 :=
      Nat.le_zero.mp (Winsock.mistaken_le_afterAll.trans (Nat.le_of_eq hzero))
    exact ⟨trivial, hlt hbefore, hlt hbefore, hlt' hbefore, trivial⟩

end Holds

namespace Process

variable {κ : Type*} [DecidableEq κ] {s t : Process κ} {k : κ}

/-- The socket a client holds. -/
def held (s : Process κ) (k : κ) : Socket := (s.clients k).elim invalidSocket Client.sock

/-- What is expected of the calls to the system. -/
structure Law (s : Process κ) : Prop where
  /-- What was closed was open. -/
  opened : Winsock.Each Winsock.Open ⟨0, 0, 0, 0, []⟩ s.log
  /-- Each was made while Winsock was started, if no error was taken for success. -/
  started : s.winsock.mistaken = 0 → Winsock.Each Winsock.Started ⟨0, 0, 0, 0, []⟩ s.log
  /-- What is open is held, and no two clients hold the same. -/
  holds : Holds s.held s.winsock 0

/-! ### Steps -/

theorem held_next {c : Option Client} {es : List Event} (h : s.next k c es = some t) :
    Winsock.Each Winsock.Promised s.winsock es ∧
      t.held = Function.update s.held k (c.elim invalidSocket Client.sock) ∧
        t.winsock = s.winsock.afterAll es ∧ t.log = s.log ++ es := by
  obtain ⟨hpromised, rfl⟩ := Machine.guarded_eq_some.mp h
  refine ⟨hpromised, ?_, Winsock.afterAll_append, rfl⟩
  ext l
  show (Function.update s.clients k c l).elim invalidSocket Client.sock = _
  by_cases hl : l = k
  · rw [hl, Function.update_self, Function.update_self]
  · rw [Function.update_of_ne hl, Function.update_of_ne hl, held]

/-- What a step does: the socket of one client changes as a call changes it. -/
theorem step_cases {i : Act κ} (h : s.step i = some t) :
    ∃ k c es, SocketStep (s.held k) (c.elim invalidSocket Client.sock) es ∧
      s.next k c es = some t := by
  cases i with
  | construct k startup sock =>
    simp only [step, Option.ite_none_right_eq_some, Option.isNone_iff_eq_none] at h
    obtain ⟨hnone, h⟩ := h
    refine ⟨k, _, _, ?_, h⟩
    have hheld : s.held k = Client.new.sock := by
      rw [held, hnone]
      rfl
    rw [hheld]
    exact socketStep_initSock startup sock
  | call k i =>
    obtain ⟨c, hc, h⟩ := Option.bind_eq_some_iff.mp h
    obtain ⟨d, hd, h⟩ := Option.bind_eq_some_iff.mp h
    refine ⟨k, some d, _, ?_, h⟩
    have hheld : s.held k = c.sock := by
      rw [held, hc]
      rfl
    rw [hheld]
    exact socketStep hd
  | destroy k =>
    obtain ⟨c, hc, h⟩ := Option.bind_eq_some_iff.mp h
    rw [Option.ite_none_right_eq_some] at h
    refine ⟨k, none, _, ?_, h.2⟩
    have hheld : s.held k = c.sock := by
      rw [held, hc]
      rfl
    have hclosed : c.closeSock.sock = invalidSocket := by
      rw [closeSock]
      dsimp only
      split_ifs with hsock
      · rfl
      · exact not_not.mp hsock
    rw [hheld, Option.elim_none, ← hclosed]
    exact socketStep_closeSock

theorem Law.step {i : Act κ} (h : s.Law) (hstep : s.step i = some t) : t.Law := by
  obtain ⟨k, c, es, hsocket, hnext⟩ := step_cases hstep
  obtain ⟨hpromised, hheld, hwinsock, hlog⟩ := held_next hnext
  obtain ⟨hopened, hstarted, hholds⟩ := h.holds.step hsocket hpromised
  refine ⟨?_, fun hzero => ?_, ?_⟩
  · rw [hlog, Winsock.each_append]
    exact ⟨h.opened, hopened⟩
  · rw [hwinsock] at hzero
    have hbefore : s.winsock.mistaken = 0 :=
      Nat.le_zero.mp (Winsock.mistaken_le_afterAll.trans (Nat.le_of_eq hzero))
    rw [hlog, Winsock.each_append]
    exact ⟨h.started hbefore, hstarted hzero⟩
  · rw [hheld, hwinsock]
    exact hholds

theorem law_of_reachable (h : (process κ).Reachable s) : s.Law := by
  refine h.invariant ⟨trivial, fun _ => trivial, .nil, fun x => ?_, fun k l _ hk => absurd rfl hk,
    rfl⟩ fun _ _ _ hs hstep => hs.step hstep
  refine iff_of_false List.not_mem_nil ?_
  rintro ⟨hx, k, rfl⟩
  exact hx rfl

/-- The second `WSAStartup` returns 10067 and is taken for success; when its client is deleted,
Winsock is stopped under the first. -/
example : ((process Bool).run (process Bool).init
    [.construct true 0 5, .construct false 10067 6, .destroy false]).map
      (fun s => (s.held true, s.winsock.startups, s.winsock.cleanups)) = some (5, 1, 1) := by
  decide +kernel

end Process
end Client
end EasyTcpServer
