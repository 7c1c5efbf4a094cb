import EasyTcpServer.Client.Client
import Mathlib.Data.List.Induction

/-!
# `Client::SendData`

`SendData` hands the whole message to one call of `send` and takes every positive result for
success.  A `send` that takes a part of the message is not followed by another one, and the
caller is told nothing: `SendData` returns 0.  Without a socket it returns 0 as well, and nothing
is sent at all.

* `sendData`: the function, over the result that `send` reports.
* `outgoing`: any calls of `SendData` and `Close_sock` on one client, with the record of what
  went on the wire and of the messages that `send` was given and `SendData` returned 0 for.
* `wire_eq_iff`: the wire carries these messages one behind the other exactly when no `send` has
  stopped short.
-/

namespace EasyTcpServer
namespace Client

/-- `SendData(data_head, nLen)` when `send` reports `r`: what is returned, and what `send` puts
on the wire. -/
def sendData (c : Client) (dataHead : Option (List UInt8)) (nLen r : ℤ) : ℤ × List UInt8 :=
  match dataHead with
  | none => (0, [])
  | some msg =>
    if c.isRun then
      if r ≤ 0 then (-1, []) else (0, (msg.take nLen.toNat).take r.toNat)
    else (0, [])

/-- A client with the record of what it has sent. -/
structure Outgoing where
  client : Client
  /-- The bytes `send` has put on the wire. -/
  wire : List UInt8
  /-- The messages that `send` was given and `SendData` returned 0 for. -/
  passed : List (List UInt8)

/-- The calls. -/
inductive SendAct where
  /-- `SendData` with a message and its length, where `send` reports `r`. -/
  | sendData (msg : List UInt8) (r : ℤ)
  | closeSock
  deriving DecidableEq, Repr

/-- What `send` may report; without a socket it is not called. -/
def SendLegal (c : Client) (msg : List UInt8) (r : ℤ) : Prop :=
  if c.isRun then r = socketError ∨ 0 ≤ r ∧ r ≤ msg.length else r = 0

instance (c : Client) (msg : List UInt8) (r : ℤ) : Decidable (c.SendLegal msg r) := by
  unfold SendLegal
  infer_instance

/-- A call of `SendData`, for a message and its length. -/
def Outgoing.sendData (s : Outgoing) (msg : List UInt8) (r : ℤ) : Outgoing :=
  let out := s.client.sendData (some msg) msg.length r
  { s with
    wire := s.wire ++ out.2
    passed := if s.client.isRun ∧ out.1 = 0 then s.passed ++ [msg] else s.passed }

/-- The calls on a client, one after the other. -/
def outgoing (c : Client) : Machine Outgoing SendAct where
  init := ⟨c, [], []⟩
  step s
    | .sendData msg r => if s.client.SendLegal msg r then some (s.sendData msg r) else none
    | .closeSock => some { s with client := s.client.closeSock }

/-- The calls that leave nothing of a message behind: `send` takes all of it, or nothing and
says so, or is not called. -/
def SendAct.Whole : SendAct → Prop
  | .sendData msg r => r ≤ 0 ∨ r = msg.length
  | .closeSock => True

instance : (i : SendAct) → Decidable i.Whole
  | .sendData msg r => inferInstanceAs (Decidable (r ≤ 0 ∨ r = msg.length))
  | .closeSock => isTrue trivial

namespace Outgoing

variable {c : Client} {s t : Outgoing} {is : List SendAct}

/-- A call for which `send` is given the message and reports success. -/
theorem sendData_of_pos (hrun : s.client.isRun = true) {msg : List UInt8} {r : ℤ} (hr : 0 < r) :
    s.sendData msg r =
      { s with wire := s.wire ++ msg.take r.toNat, passed := s.passed ++ [msg] } := by
  simp [sendData, Client.sendData, hrun, not_le.mpr hr]

/-- Any other call. -/
theorem sendData_of_not_pos {msg : List UInt8} {r : ℤ} (hr : s.client.isRun = true → r ≤ 0) :
    s.sendData msg r = s := by
  by_cases hrun : s.client.isRun = true
  · simp [sendData, Client.sendData, hrun, hr hrun]
  · simp [sendData, Client.sendData, hrun]

/-- What a step does: it adds the front of a message to the wire, or nothing. -/
theorem step_cases {i : SendAct} (h : (outgoing c).step s i = some t) :
    (t.wire = s.wire ∧ t.passed = s.passed ∧ i.Whole) ∨
      ∃ msg r, i = .sendData msg r ∧ 0 < r ∧ r ≤ msg.length ∧
        t.wire = s.wire ++ msg.take r.toNat ∧ t.passed = s.passed ++ [msg] := by
  cases i with
  | closeSock =>
    obtain rfl := Option.some.inj h
    exact .inl ⟨rfl, rfl, trivial⟩
  | sendData msg r =>
    obtain ⟨hlegal, rfl⟩ := Machine.guarded_eq_some.mp h
    by_cases hsent : s.client.isRun = true ∧ 0 < r
    · obtain ⟨hrun, hr⟩ := hsent
      rw [SendLegal, if_pos hrun] at hlegal
      have hle : r ≤ msg.length := by
        rcases hlegal with rfl | hlegal
        · exact absurd hr (by decide)
        · exact hlegal.2
      rw [sendData_of_pos hrun hr]
      exact .inr ⟨msg, r, rfl, hr, hle, rfl, rfl⟩
    · have hr : r ≤ 0 := by
        by_cases hrun : s.client.isRun = true
        · exact not_lt.mp fun hpos => hsent ⟨hrun, hpos⟩
        · rw [SendLegal, if_neg hrun] at hlegal
          exact le_of_eq hlegal
      rw [sendData_of_not_pos fun _ => hr]
      exact .inl ⟨rfl, rfl, .inl hr⟩

/-- The law, or bytes that are missing for good. -/
def Accounts (s : Outgoing) (whole : Prop) : Prop :=
  (whole ∧ s.wire = s.passed.flatten) ∨ (¬ whole ∧ s.wire.length < s.passed.flatten.length)

/-- **One call.**  A `send` that stops short takes bytes away, and no later call puts them
back. -/
theorem Accounts.step {whole : Prop} (h : s.Accounts whole) {i : SendAct}
    (hstep : (outgoing c).step s i = some t) : t.Accounts (whole ∧ i.Whole) := by
  rcases step_cases hstep with ⟨hwire, hpassed, hi⟩ | ⟨msg, r, rfl, hpos, hle, hwire, hpassed⟩
  · rw [Accounts, hwire, hpassed, and_iff_left hi]
    exact h
  · have hlength : (msg.take r.toNat).length = r.toNat := by
      rw [List.length_take]
      omega
    have hwhole : (SendAct.sendData msg r).Whole ↔ r = msg.length := or_iff_right (not_le.mpr hpos)
    rw [Accounts, hwire, hpassed, List.flatten_concat, List.length_append, List.length_append,
      hlength, hwhole]
    rcases h with ⟨hw, hlaw⟩ | ⟨hw, hlt⟩
    · by_cases hr : r = msg.length
      · refine .inl ⟨⟨hw, hr⟩, ?_⟩
        rw [hlaw, List.take_of_length_le (by omega)]
      · refine .inr ⟨fun h => hr h.2, ?_⟩
        rw [hlaw]
        omega
    · refine .inr ⟨fun h => hw h.1, ?_⟩
      omega

theorem accounts_of_run (hrun : (outgoing c).run (outgoing c).init is = some s) :
    s.Accounts (∀ i ∈ is, i.Whole) := by
  induction is using List.reverseRecOn generalizing s with
  | nil =>
    obtain rfl := Option.some.inj hrun
    exact .inl ⟨fun _ h => absurd h List.not_mem_nil, rfl⟩
  | append_singleton is i ih =>
    obtain ⟨u, hu, hstep⟩ := Machine.run_snoc_eq_some.mp hrun
    have hlast := (ih hu).step hstep
    rwa [← List.forall_mem_singleton (p := SendAct.Whole), ← List.forall_mem_append] at hlast

end Outgoing

/-- **The outgoing stream of `SendData`.**  Behind any calls of `SendData` and `Close_sock` the
wire carries the messages that `SendData` has returned 0 for, one behind the other, exactly when
no `send` has stopped short.  Once one has, the wire stays shorter than these messages. -/
theorem wire_eq_iff (c : Client) (is : List SendAct) (s : Outgoing)
    (hrun : (outgoing c).run (outgoing c).init is = some s) :
    (s.wire = s.passed.flatten ↔ ∀ i ∈ is, i.Whole) ∧
      s.wire.length ≤ s.passed.flatten.length := by
  rcases Outgoing.accounts_of_run hrun with ⟨hwhole, hlaw⟩ | ⟨hshort, hlt⟩
  · exact ⟨iff_of_true hlaw hwhole, hlaw ▸ le_refl _⟩
  · exact ⟨iff_of_false (fun hlaw => absurd hlt (hlaw ▸ lt_irrefl _)) hshort, le_of_lt hlt⟩

/-- Of two messages of four bytes the first is sent in part and the second whole. -/
theorem wire_eq_iff_short :
    ∃ s : Outgoing, s.wire = [4, 0, 4, 0, 0, 0] ∧ s.passed = [[4, 0, 0, 0], [4, 0, 0, 0]] ∧
      ¬ s.wire = s.passed.flatten := by
  let is : List SendAct := [.sendData [4, 0, 0, 0] 2, .sendData [4, 0, 0, 0] 4, .closeSock,
    .sendData [4, 0, 0, 0] 0]
  obtain ⟨s, hrun, hs⟩ : ∃ s, (outgoing { new with sock := 3 }).run
      (outgoing { new with sock := 3 }).init is = some s ∧
      s.wire = [4, 0, 4, 0, 0, 0] ∧ s.passed = [[4, 0, 0, 0], [4, 0, 0, 0]] :=
    ⟨_, rfl, rfl, rfl⟩
  refine ⟨s, hs.1, hs.2, fun hlaw => ?_⟩
  exact absurd ((wire_eq_iff _ is s hrun).1.mp hlaw) (by decide)

end Client
end EasyTcpServer
