import EasyTcpServer.ServerH.Server
import Mathlib.Data.Int.Order.Basic

/-!
# The client counter of `Server.h`

`_clientCount` is raised by `OnNetJoin`, when a client is given to a `Cell_Server`, and lowered
by `OnNetLeave`, when `recvData` notices that it has left.  The merge moves clients from the queue
to the map.  A failure of `select` clears the map without `OnNetLeave`.

* `CountInv`: the counter is the number of clients and of those that failures have cleared.
* `clientCount_iff`: it is the number of clients exactly as long as no `select` has failed.
-/

namespace EasyTcpServer
namespace ServerH

variable {n : ℕ} {s t : State n} {i : Act n} {k : Fin (n + 1)} {sock sockfd : Socket}

/-- `getClinetCount()` of all `Cell_Server`s. -/
def State.total (s : State n) : ℕ := ∑ k, (s.cellservers k).getClinetCount

/-- The steps of a server that is not shut down. -/
def Serving (_ : State n) : Act n → Prop
  | .closeSock | .destroy | .cell _ .closeSock | .cell _ .destroy => False
  | _ => True

instance (s : State n) : ∀ i, Decidable (Serving s i)
  | .accept _ | .addClinetToCellserver | .compare | .addClient => .isTrue trivial
  | .closeSock | .destroy | .cell _ .closeSock | .cell _ .destroy => .isFalse id
  | .cell _ .merge | .cell _ .select | .cell _ .selectFails | .cell _ .ready
  | .cell _ (.leave _) | .cell _ .passed => .isTrue trivial

/-- The counter, when failures have cleared `lost` clients. -/
structure CountInv (s : State n) (lost : ℕ) : Prop where
  count : s.clientCount = s.total + lost
  lost_iff : lost = 0 ↔ ∀ k, s.locs k ≠ .failed
  clients : ∀ k, s.locs k = .select → (s.cellservers k).clients.size ≠ 0

/-- A `Cell_Server` goes to another place of its loop. -/
theorem CountInv.setLoc {lost : ℕ} (h : CountInv s lost) {loc : Loc} (hold : s.locs k ≠ .failed)
    (hnew : loc ≠ .failed) (hclients : loc = .select → (s.cellservers k).clients.size ≠ 0) :
    CountInv (s.setLoc k loc) lost := by
  refine ⟨h.count, h.lost_iff.trans (forall_congr' fun j => ?_), fun j hj => ?_⟩
  · rw [setLoc_apply]
    split_ifs with hjk
    · rw [hjk]
      exact iff_of_true hold hnew
    · exact Iff.rfl
  · rw [setLoc_apply] at hj
    split_ifs at hj with hjk
    · rw [hjk]
      exact hclients hj
    · exact h.clients j hj

/-- The clients of a `Cell_Server` outside `select` change, with the counter. -/
theorem CountInv.setCell {lost : ℕ} (h : CountInv s lost) (hloc : s.locs k ≠ .select)
    {c : CellServer} {count : ℤ}
    (hcount : count + (s.cellservers k).getClinetCount = s.clientCount + c.getClinetCount) :
    CountInv { s.setCell k c with clientCount := count } lost := by
  refine ⟨?_, h.lost_iff, fun j hj => ?_⟩
  · have hsum := sum_update_add s.cellservers k c
    have hold := h.count
    have htotal : ({ s.setCell k c with clientCount := count } : State n).total =
      ∑ j, (Function.update s.cellservers k c j).getClinetCount := rfl
    unfold State.total at hold
    rw [htotal]
    show count = _
    omega
  · show ((s.setCell k c).cellservers j).clients.size ≠ 0
    have hjk : j ≠ k := by
      rintro rfl
      exact hloc hj
    rw [setCell_apply, if_neg hjk]
    exact h.clients j hj

/-- **A failure of `select`** loses the clients in the map, and there was one. -/
theorem CountInv.selectFails {lost : ℕ} (h : CountInv s lost) (hloc : s.locs k = .select) :
    CountInv ((cellCloseSock s k).setLoc k .failed)
      (lost + (s.cellservers k).clients.size) := by
  have hpos := h.clients k hloc
  refine ⟨?_, iff_of_false (by omega) fun hall => hall k ?_, fun j hj => ?_⟩
  · have hsum := sum_update_add s.cellservers k (s.cellservers k).closeSock.1
    have hcleared := CellServer.getClinetCount_closeSock (c := s.cellservers k)
    have hold := h.count
    have htotal : ((cellCloseSock s k).setLoc k .failed).total =
      ∑ j, (Function.update s.cellservers k (s.cellservers k).closeSock.1 j).getClinetCount := rfl
    unfold State.total at hold
    rw [htotal]
    show s.clientCount = _
    omega
  · rw [setLoc_apply, if_pos rfl]
  · rw [setLoc_apply] at hj
    split_ifs at hj with hjk
    show ((cellCloseSock s k).cellservers j).clients.size ≠ 0
    rw [cellCloseSock_apply, if_neg hjk]
    exact h.clients j hj

theorem CountInv.cellNext {lost : ℕ} (h : CountInv s lost) (hinv : Inv s) {a : CellAct}
    (hserving : Serving s (.cell k a)) (heffect : CellEffect s k t a) :
    ∃ lost', CountInv t lost' := by
  cases heffect with
  | merge hloc ht =>
    rw [ht]
    refine ⟨lost, h.setCell (by rw [hloc]; decide) ?_⟩
    rw [CellServer.getClinetCount_merge (hinv.nodup k)]
  | select hloc hclients ht =>
    rw [ht]
    refine ⟨lost, h.setLoc (by rw [hloc]; decide) (by decide) fun _ hsize => hclients ?_⟩
    rw [Std.TreeMap.isEmpty_eq_size_eq_zero, hsize]
    rfl
  | selectFails hloc ht =>
    rw [ht]
    exact ⟨_, h.selectFails hloc⟩
  | ready hloc ht =>
    rw [ht]
    exact ⟨lost, h.setLoc (by rw [hloc]; decide) (by decide) fun heq => (by cases heq)⟩
  | leave hloc hin ht =>
    rw [ht]
    refine ⟨lost, h.setCell (by rw [hloc]; decide) ?_⟩
    have herase := CellServer.getClinetCount_erase hin
    omega
  | passed hloc ht =>
    rw [ht]
    exact ⟨lost, h.setLoc (by rw [hloc]; decide) (by decide) fun heq => (by cases heq)⟩
  | closeSock _ => exact hserving.elim
  | destroy _ => exact hserving.elim

theorem CountInv.next {lost : ℕ} (h : CountInv s lost) (hinv : Inv s) (hserving : Serving s i)
    (hstep : step s i = some t) : ∃ lost', CountInv t lost' := by
  cases effect_of_step hstep with
  | accept _ _ _ ht =>
    rw [ht]
    exact ⟨lost, h.count, h.lost_iff, h.clients⟩
  | addClinetToCellserver _ _ ht =>
    rw [ht]
    exact ⟨lost, h.count, h.lost_iff, h.clients⟩
  | compare q _ _ ht =>
    rw [ht]
    exact ⟨lost, h.count, h.lost_iff, h.clients⟩
  | addClient q p _ _ _ ht =>
    rw [ht]
    refine ⟨lost, ?_, h.lost_iff, fun k hk => ?_⟩
    · have hsum := sum_addClientTo s.cellservers p q.pMinServer
      have hold := h.count
      unfold State.total at hold ⊢
      dsimp only
      rw [hsum]
      omega
    · rw [clients_addClientTo]
      exact h.clients k hk
  | closeSock _ => exact hserving.elim
  | destroy _ => exact hserving.elim
  | cell heffect => exact h.cellNext hinv hserving heffect

theorem total_init : (server n sock).init.total = 0 := Finset.sum_eq_zero fun _ _ => rfl

theorem exists_countInv (hsock : sock ≠ invalidSocket)
    (h : (server n sock).ReachWithin Serving s) : Inv s ∧ ∃ lost, CountInv s lost := by
  refine h.invariant (I := fun s => Inv s ∧ ∃ lost, CountInv s lost)
    ⟨inv_init hsock, 0, ?_, ?_, fun k hk => (by cases hk)⟩ ?_
  · show (0 : ℤ) = (server n sock).init.total + (0 : ℕ)
    rw [total_init]
    rfl
  · exact iff_of_true rfl fun k hk => (by cases hk)
  · rintro s i t ⟨hinv, lost, hcount⟩ hserving hstep
    exact ⟨hinv.next hstep, hcount.next hinv hserving hstep⟩

/-- **The counter is exact as long as no `select` has failed**, and not any more then. -/
theorem clientCount_iff (hsock : sock ≠ invalidSocket)
    (h : (server n sock).ReachWithin Serving s) :
    s.clientCount = ∑ k, (s.cellservers k).getClinetCount ↔ ∀ k, s.locs k ≠ .failed := by
  obtain ⟨-, lost, hcount⟩ := exists_countInv hsock h
  have hold := hcount.count
  rw [← hcount.lost_iff]
  unfold State.total at hold
  omega

/-- One client is served and leaves, another is waiting. -/
theorem clientCount_one :
    ∃ s, (server 1 3).ReachWithin Serving s ∧ s.clientCount = 1 ∧ s.locs 0 = .loop ∧
      (s.clientCount = ∑ k, (s.cellservers k).getClinetCount ↔ ∀ k, s.locs k ≠ .failed) := by
  obtain ⟨s, hs, hp⟩ := Machine.exists_reachWithin_of_run (M := server 1 3) Serving
    (List.flatten [[.accept 4], dispatch 1, [.cell 0 .merge, .cell 0 .select, .accept 5,
      .cell 0 .ready], dispatch 1, [.cell 0 (.leave 4), .cell 0 .passed]])
    (fun s => s.clientCount = 1 ∧ s.locs 0 = .loop) (by decide +kernel)
  obtain ⟨hcount, hloc⟩ := of_decide_eq_true hp
  exact ⟨s, hs, hcount, hloc, clientCount_iff (by decide) hs⟩

/-- The only client of a server, whose `select` fails. -/
theorem clientCount_fails : ∃ s : State 0, (server 0 3).ReachWithin Serving s ∧
    s.clientCount = 1 ∧ ∑ k, (s.cellservers k).getClinetCount = 0 := by
  obtain ⟨s, hs, hp⟩ := Machine.exists_reachWithin_of_run (M := server 0 3) Serving
    (List.flatten [[.accept 4], dispatch 0, [.cell 0 .merge, .cell 0 .select,
      .cell 0 .selectFails]])
    (fun s => s.clientCount = 1 ∧ ∑ k, (s.cellservers k).getClinetCount = 0) (by decide +kernel)
  exact ⟨s, hs, of_decide_eq_true hp⟩

end ServerH
end EasyTcpServer
