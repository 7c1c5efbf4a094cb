import EasyTcpServer.Lib.Machine
import EasyTcpServer.ServerH.CellServers

/-!
# The load of the `Cell_Server`s

As long as no client leaves, `addClinetToCellserver` keeps the `Cell_Server`s of a server even.
The machine below dispatches clients with distinct sockets, and lets each `Cell_Server` merge its
queue into its map at any time.

* `balanced`: the numbers of clients differ by at most one, and sum to the number dispatched.
-/

namespace EasyTcpServer
namespace ServerH
namespace Balance

structure State (n : ℕ) where
  cellservers : Fin (n + 1) → CellServer
  /-- The clients dispatched. -/
  dispatched : List ClientSocketPtr

inductive Act (n : ℕ) where
  | addClinetToCellserver (p : ClientSocketPtr)
  /-- The merge of a `Cell_Server`. -/
  | merge (k : Fin (n + 1))
  deriving DecidableEq, Repr

variable {n : ℕ}

def step (s : State n) : Act n → Option (State n)
  | .addClinetToCellserver p =>
    if p.sockfd ∉ s.dispatched.map ClientSocketPtr.sockfd then
      some ⟨ServerH.addClinetToCellserver s.cellservers p, s.dispatched ++ [p]⟩
    else none
  | .merge k =>
    some { s with cellservers := Function.update s.cellservers k (s.cellservers k).merge }

end Balance

open Balance in
/-- `n + 1` empty `Cell_Server`s. -/
def balance (n : ℕ) (sock : Socket) : Machine (State n) (Act n) where
  init := ⟨fun _ => .new sock, []⟩
  step := step

namespace Balance

variable {n : ℕ} {s t : State n} {i : Act n} {sock : Socket}

structure Inv (s : State n) : Prop where
  nodup : ∀ k, (s.cellservers k).sockets.Nodup
  dispatched : ∀ k, ∀ sockfd ∈ (s.cellservers k).sockets,
    sockfd ∈ s.dispatched.map ClientSocketPtr.sockfd
  even : ∀ j k, (s.cellservers j).getClinetCount ≤ (s.cellservers k).getClinetCount + 1
  sum : ∑ k, (s.cellservers k).getClinetCount = s.dispatched.length

/-- A client goes to one of those that have the fewest. -/
theorem Inv.add (h : Inv s) {p : ClientSocketPtr}
    (hnew : p.sockfd ∉ s.dispatched.map ClientSocketPtr.sockfd) :
    Inv ⟨ServerH.addClinetToCellserver s.cellservers p, s.dispatched ++ [p]⟩ := by
  refine ⟨nodup_addClientTo p h.nodup fun k hin => hnew (h.dispatched k _ hin),
    fun k sockfd hk => ?_, fun j k => ?_, ?_⟩
  · rw [List.map_append, List.mem_append]
    obtain hk | ⟨-, rfl⟩ := mem_sockets_addClientTo p hk
    · exact .inl (h.dispatched k _ hk)
    · exact .inr (List.mem_singleton_self _)
  · rw [ServerH.addClinetToCellserver, getClinetCount_addClientTo, getClinetCount_addClientTo]
    have heven := h.even j k
    split_ifs with hj hk
    · exact Nat.add_le_add_right heven 1
    · -- the server that is chosen had no more than the other
      rw [hj]
      exact Nat.add_le_add_right (minServer_le s.cellservers k) 1
    · omega
    · exact heven
  · rw [ServerH.addClinetToCellserver, sum_addClientTo, h.sum, List.length_append,
      List.length_singleton]

/-- A merge changes no number. -/
theorem Inv.merge (h : Inv s) (k : Fin (n + 1)) :
    Inv { s with cellservers := Function.update s.cellservers k (s.cellservers k).merge } := by
  have hperm (j : Fin (n + 1)) :
      (Function.update s.cellservers k (s.cellservers k).merge j).sockets.Perm
        (s.cellservers j).sockets := by
    by_cases hjk : j = k
    · rw [hjk, Function.update_self]
      exact CellServer.sockets_merge_perm (h.nodup k)
    · rw [Function.update_of_ne hjk]
  have hcount := getClinetCount_update_merge (h.nodup k)
  refine ⟨fun j => (hperm j).nodup_iff.mpr (h.nodup j),
    fun j sockfd hj => h.dispatched j sockfd ((hperm j).mem_iff.mp hj), fun i j => ?_, ?_⟩
  · rw [hcount i, hcount j]
    exact h.even i j
  · simp only [hcount]
    exact h.sum

theorem Inv.next (h : Inv s) (hstep : step s i = some t) : Inv t := by
  cases i with
  | addClinetToCellserver p =>
    obtain ⟨hnew, rfl⟩ := Machine.guarded_eq_some.mp hstep
    exact h.add hnew
  | merge k =>
    obtain rfl := Option.some.inj hstep
    exact h.merge k

theorem inv_init : Inv (balance n sock).init :=
  ⟨fun _ => .nil, fun _ _ h => absurd h List.not_mem_nil, fun _ _ => Nat.zero_le _,
    Finset.sum_eq_zero fun _ _ => rfl⟩

/-- **The load is balanced.** -/
theorem balanced (h : (balance n sock).Reachable s) :
    (∀ j k, (s.cellservers j).getClinetCount ≤ (s.cellservers k).getClinetCount + 1) ∧
      ∑ k, (s.cellservers k).getClinetCount = s.dispatched.length := by
  have hinv : Inv s := h.invariant inv_init fun _ _ _ hs hstep => hs.next hstep
  exact ⟨hinv.even, hinv.sum⟩

/-- Three clients for two servers, one of which has merged the first. -/
theorem balanced_three : ∃ s, (balance 1 3).Reachable s ∧
    (s.cellservers 0).getClinetCount = 2 ∧ (s.cellservers 0).clients.size = 1 ∧
      (s.cellservers 1).getClinetCount = 1 ∧
      (∀ j k, (s.cellservers j).getClinetCount ≤ (s.cellservers k).getClinetCount + 1) ∧
        ∑ k, (s.cellservers k).getClinetCount = s.dispatched.length := by
  obtain ⟨s, hs, hp⟩ := Machine.exists_reachable_of_run (M := balance 1 3)
    [.addClinetToCellserver ⟨4⟩, .merge 0, .addClinetToCellserver ⟨5⟩,
      .addClinetToCellserver ⟨6⟩]
    (fun s => (s.cellservers 0).getClinetCount = 2 ∧ (s.cellservers 0).clients.size = 1 ∧
      (s.cellservers 1).getClinetCount = 1) (by decide +kernel)
  obtain ⟨hzero, hmerged, hone⟩ := of_decide_eq_true hp
  exact ⟨s, hs, hzero, hmerged, hone, balanced hs⟩

end Balance
end ServerH
end EasyTcpServer
