import EasyTcpServer.Buffer.CellClient
import Mathlib.Algebra.BigOperators.Group.Finset.Piecewise
import Mathlib.Data.Fintype.Basic
import Mathlib.Data.List.FinRange
import Mathlib.Data.List.MinMax
import Mathlib.Data.List.Perm.Lattice
import Std.Data.TreeMap.Lemmas

/-!
# The `Cell_Server`s of `Server.h`

`Server.h` has its own `Cell_Server`: a map `_clients` by socket, a queue `_clientsBuff` of new
clients, and a copy of the listening socket of the server.  `addClinetToCellserver` gives a new
client to the first `Cell_Server` that has the fewest.

Of a client only `sockfd()` is read here.  `getClinetCount` converts both sizes to `int`; there
are fewer than `2 ^ 31` sockets, so this is the number.

* `CellServer`: the data, whose map is by the clients' own sockets, and the operations.
* `sockets`: the clients of a `Cell_Server`, in the map or in the queue, and what each operation
  does to them.
* `minServer`, `minServer_le`: the search for the fewest, and what it finds.
-/

namespace EasyTcpServer
namespace ServerH

/-- A `Client_socketPtr`. -/
structure ClientSocketPtr where
  sockfd : Socket
  deriving DecidableEq, Repr

/-- `_clients`. -/
abbrev Clients := Std.TreeMap Socket ClientSocketPtr

/-- Each client is filed under its own socket. -/
def Keyed (clients : Clients) : Prop :=
  ∀ (k : Socket) (p : ClientSocketPtr), clients[k]? = some p → p.sockfd = k

theorem keyed_empty : Keyed ∅ := fun k p h => by simp at h

theorem Keyed.insert {clients : Clients} (h : Keyed clients) (p : ClientSocketPtr) :
    Keyed (clients.insert p.sockfd p) := by
  intro k q hq
  rw [Std.TreeMap.getElem?_insert] at hq
  split_ifs at hq with hk
  · rw [← Option.some.inj hq]
    exact Std.LawfulEqCmp.eq_of_compare hk
  · exact h k q hq

theorem Keyed.foldl_insert {clients : Clients} (h : Keyed clients) (ps : List ClientSocketPtr) :
    Keyed (ps.foldl (fun clients p => clients.insert p.sockfd p) clients) := by
  induction ps generalizing clients with
  | nil => exact h
  | cons p ps ih => exact ih (h.insert p)

theorem Keyed.erase {clients : Clients} (h : Keyed clients) (sockfd : Socket) :
    Keyed (clients.erase sockfd) := by
  intro k q hq
  rw [Std.TreeMap.getElem?_erase] at hq
  split_ifs at hq
  exact h k q hq

structure CellServer where
  sock : Socket
  clients : Clients
  clientsBuff : List ClientSocketPtr
  keyed : Keyed clients

namespace CellServer

/-- The constructor. -/
def new (sock : Socket) : CellServer := ⟨sock, ∅, [], keyed_empty⟩

variable (c : CellServer)

/-- `isRun`. -/
def isRun : Bool := c.sock ≠ invalidSocket

/-- `getClinetCount`. -/
def getClinetCount : ℕ := c.clients.size + c.clientsBuff.length

/-- `addClient`. -/
def addClient (p : ClientSocketPtr) : CellServer := { c with clientsBuff := c.clientsBuff ++ [p] }

/-- The merge of `onRun`. -/
def merge : CellServer where
  sock := c.sock
  clients := c.clientsBuff.foldl (fun clients p => clients.insert p.sockfd p) c.clients
  clientsBuff := []
  keyed := c.keyed.foldl_insert c.clientsBuff

/-- `_clients.erase(sockfd)`. -/
def erase (sockfd : Socket) : CellServer where
  sock := c.sock
  clients := c.clients.erase sockfd
  clientsBuff := c.clientsBuff
  keyed := c.keyed.erase sockfd

/-- `Close_sock`: the server, and the sockets it passes to `close`. -/
def closeSock : CellServer × List Socket :=
  (⟨c.sock, ∅, c.clientsBuff, keyed_empty⟩,
    if c.sock ≠ invalidSocket then c.clients.toList.map (fun q => q.2.sockfd) ++ [c.sock] else [])

/-! ## The clients of a server -/

/-- The sockets of the clients, in the map and in the queue. -/
def sockets : List Socket := c.clients.keys ++ c.clientsBuff.map ClientSocketPtr.sockfd

theorem getClinetCount_eq : c.getClinetCount = c.sockets.length := by
  rw [sockets, List.length_append, List.length_map, Std.TreeMap.length_keys, getClinetCount]

theorem sockets_addClient (p : ClientSocketPtr) :
    (c.addClient p).sockets = c.sockets ++ [p.sockfd] := by
  simp [sockets, addClient]

theorem getClinetCount_addClient (p : ClientSocketPtr) :
    (c.addClient p).getClinetCount = c.getClinetCount + 1 := by
  simp [getClinetCount, addClient, Nat.add_assoc]

theorem nodup_addClient {p : ClientSocketPtr} (h : c.sockets.Nodup) (hp : p.sockfd ∉ c.sockets) :
    (c.addClient p).sockets.Nodup := by
  rw [sockets_addClient]
  exact List.nodup_append'.mpr ⟨h, List.nodup_singleton _, List.disjoint_singleton.mpr hp⟩

/-- A new key. -/
theorem keys_insert_perm {clients : Clients} {k : Socket} (hk : k ∉ clients.keys)
    (p : ClientSocketPtr) : (clients.insert k p).keys.Perm (k :: clients.keys) := by
  refine (List.perm_ext_iff_of_nodup Std.TreeMap.nodup_keys
    (List.nodup_cons.mpr ⟨hk, Std.TreeMap.nodup_keys⟩)).mpr fun a => ?_
  rw [Std.TreeMap.mem_keys, Std.TreeMap.mem_insert, List.mem_cons, Std.TreeMap.mem_keys,
    Std.LawfulEqCmp.compare_eq_iff_eq, eq_comm]

theorem keys_foldl_insert_perm {ps : List ClientSocketPtr} {clients : Clients}
    (h : (clients.keys ++ ps.map ClientSocketPtr.sockfd).Nodup) :
    (ps.foldl (fun clients p => clients.insert p.sockfd p) clients).keys.Perm
      (clients.keys ++ ps.map ClientSocketPtr.sockfd) := by
  induction ps generalizing clients with
  | nil => simp
  | cons p ps ih =>
    rw [List.map_cons] at h ⊢
    have hp : p.sockfd ∉ clients.keys := fun hin =>
      (List.nodup_append'.mp h).2.2 hin List.mem_cons_self
    have hperm : ((clients.insert p.sockfd p).keys ++ ps.map ClientSocketPtr.sockfd).Perm
        (clients.keys ++ p.sockfd :: ps.map ClientSocketPtr.sockfd) :=
      ((keys_insert_perm hp p).append_right _).trans List.perm_middle.symm
    exact (ih (hperm.nodup_iff.mpr h)).trans hperm

variable {c}

/-- **The merge loses no client and counts none twice**, if the sockets are distinct. -/
theorem sockets_merge_perm (h : c.sockets.Nodup) : c.merge.sockets.Perm c.sockets := by
  have hmerge : c.merge.sockets = c.merge.clients.keys := List.append_nil _
  rw [hmerge]
  exact keys_foldl_insert_perm h

theorem getClinetCount_merge (h : c.sockets.Nodup) :
    c.merge.getClinetCount = c.getClinetCount := by
  rw [getClinetCount_eq, getClinetCount_eq, (sockets_merge_perm h).length_eq]

/-- A client in the map stays there. -/
theorem mem_clients_merge {sockfd : Socket} (h : sockfd ∈ c.clients) :
    sockfd ∈ c.merge.clients := by
  show sockfd ∈ c.clientsBuff.foldl (fun clients p => clients.insert p.sockfd p) c.clients
  generalize c.clients = clients at h
  induction c.clientsBuff generalizing clients with
  | nil => exact h
  | cons p ps ih => exact ih _ (Std.TreeMap.mem_insert.mpr (.inr h))

/-- A client in the map is erased. -/
theorem sockets_erase_perm {sockfd : Socket} (h : sockfd ∈ c.clients) :
    c.sockets.Perm (sockfd :: (c.erase sockfd).sockets) := by
  have hkeys : c.clients.keys.Perm (sockfd :: (c.clients.erase sockfd).keys) := by
    refine (List.perm_ext_iff_of_nodup Std.TreeMap.nodup_keys
      (List.nodup_cons.mpr ⟨?_, Std.TreeMap.nodup_keys⟩)).mpr fun a => ?_
    · simp
    · rw [Std.TreeMap.mem_keys, List.mem_cons, Std.TreeMap.mem_keys, Std.TreeMap.mem_erase,
        ne_eq, Std.LawfulEqCmp.compare_eq_iff_eq, eq_comm (a := sockfd)]
      by_cases ha : a = sockfd
      · simp [ha, h]
      · simp [ha]
  exact hkeys.append_right _

/-- One client less. -/
theorem getClinetCount_erase {sockfd : Socket} (h : sockfd ∈ c.clients) :
    (c.erase sockfd).getClinetCount + 1 = c.getClinetCount := by
  rw [getClinetCount_eq, getClinetCount_eq, (sockets_erase_perm h).length_eq, List.length_cons]

/-- The clients in the map are lost. -/
theorem getClinetCount_closeSock :
    c.closeSock.1.getClinetCount + c.clients.size = c.getClinetCount := by
  show 0 + c.clientsBuff.length + c.clients.size = c.clients.size + c.clientsBuff.length
  omega

theorem sockets_closeSock :
    c.closeSock.1.sockets = c.clientsBuff.map ClientSocketPtr.sockfd := rfl

theorem mem_sockets_of_mem {sockfd : Socket} (h : sockfd ∈ c.clients) : sockfd ∈ c.sockets :=
  List.mem_append_left _ (Std.TreeMap.mem_keys.mpr h)

/-- What `Close_sock` passes to `close`. -/
theorem closeSock_snd (h : c.sock ≠ invalidSocket) :
    c.closeSock.2 = c.clients.keys ++ [c.sock] := by
  rw [closeSock, if_pos h, ← Std.TreeMap.map_fst_toList_eq_keys]
  refine congrArg (· ++ [c.sock]) (List.map_congr_left fun q hq => ?_)
  exact c.keyed q.1 q.2 (Std.TreeMap.mem_toList_iff_getElem?_eq_some.mp hq)

end CellServer

/-! ## The choice of a server -/

variable {n : ℕ} (cs : Fin (n + 1) → CellServer)

/-- One turn of the search of `addClinetToCellserver`. -/
def compareMin (pMinServer k : Fin (n + 1)) : Fin (n + 1) :=
  if (cs pMinServer).getClinetCount > (cs k).getClinetCount then k else pMinServer

/-- The search, when no `Cell_Server` changes meanwhile. -/
def minServer : Fin (n + 1) := (List.finRange (n + 1)).foldl (compareMin cs) 0

/-- A `Cell_Server` gets a client. -/
def addClientTo (k : Fin (n + 1)) (p : ClientSocketPtr) : Fin (n + 1) → CellServer :=
  Function.update cs k ((cs k).addClient p)

/-- `addClinetToCellserver` as one step, without the event. -/
def addClinetToCellserver (p : ClientSocketPtr) : Fin (n + 1) → CellServer :=
  addClientTo cs (minServer cs) p

/-- A search for the least value by a strict comparison finds the first. -/
theorem argmin_cons_eq {α β : Type*} [LinearOrder β] (f : α → β) (a : α) (l : List α) :
    (a :: l).argmin f = some (l.foldl (fun m k => if f m > f k then k else m) a) := by
  induction l using List.reverseRecOn with
  | nil => rfl
  | append_singleton l b ih =>
    rw [← List.cons_append, List.argmin_concat, ih, List.foldl_append]
    dsimp only [List.foldl_cons, List.foldl_nil]
    rw [apply_ite some]

theorem minServer_mem_argmin :
    minServer cs ∈ (List.finRange (n + 1)).argmin fun k => (cs k).getClinetCount := by
  rw [minServer, List.finRange_succ, argmin_cons_eq, Option.mem_some_iff, List.foldl_cons,
    compareMin, if_neg (lt_irrefl _)]
  rfl

/-- **No server has fewer clients** than the one that is chosen. -/
theorem minServer_le (k : Fin (n + 1)) :
    (cs (minServer cs)).getClinetCount ≤ (cs k).getClinetCount :=
  List.le_of_mem_argmin (f := fun k => (cs k).getClinetCount) (List.mem_finRange k)
    (minServer_mem_argmin cs)

variable {cs} (p : ClientSocketPtr) {j : Fin (n + 1)}

theorem addClientTo_apply (k : Fin (n + 1)) :
    addClientTo cs j p k = if k = j then (cs k).addClient p else cs k := by
  by_cases hk : k = j
  · rw [addClientTo, if_pos hk, hk, Function.update_self]
  · rw [addClientTo, if_neg hk, Function.update_of_ne hk]

theorem nodup_addClientTo (h : ∀ k, (cs k).sockets.Nodup) (hp : ∀ k, p.sockfd ∉ (cs k).sockets)
    (k : Fin (n + 1)) : (addClientTo cs j p k).sockets.Nodup := by
  rw [addClientTo_apply]
  split_ifs
  · exact (cs k).nodup_addClient (h k) (hp k)
  · exact h k

/-- A client that is there then was there before, or is the new one. -/
theorem mem_sockets_addClientTo {k : Fin (n + 1)} {sockfd : Socket}
    (h : sockfd ∈ (addClientTo cs j p k).sockets) :
    sockfd ∈ (cs k).sockets ∨ k = j ∧ sockfd = p.sockfd := by
  rw [addClientTo_apply] at h
  split_ifs at h with hk
  · rw [CellServer.sockets_addClient, List.mem_append, List.mem_singleton] at h
    exact h.imp_right fun heq => ⟨hk, heq⟩
  · exact .inl h

/-- The maps are as before, and so are the listening sockets. -/
theorem clients_addClientTo (k : Fin (n + 1)) :
    (addClientTo cs j p k).clients = (cs k).clients := by
  rw [addClientTo_apply]
  split_ifs <;> rfl

theorem sock_addClientTo (k : Fin (n + 1)) : (addClientTo cs j p k).sock = (cs k).sock := by
  rw [addClientTo_apply]
  split_ifs <;> rfl

theorem getClinetCount_addClientTo (k : Fin (n + 1)) :
    (addClientTo cs j p k).getClinetCount =
      (cs k).getClinetCount + if k = j then 1 else 0 := by
  rw [addClientTo_apply]
  split_ifs
  · exact (cs k).getClinetCount_addClient p
  · rfl

variable (cs j) in
theorem sum_addClientTo :
    ∑ k, (addClientTo cs j p k).getClinetCount = ∑ k, (cs k).getClinetCount + 1 := by
  simp only [getClinetCount_addClientTo, Finset.sum_add_distrib, Finset.sum_ite_eq',
    Finset.mem_univ, if_true]

variable (cs) in
/-- The sum, when one server changes. -/
theorem sum_update_add (k : Fin (n + 1)) (c : CellServer) :
    ∑ j, (Function.update cs k c j).getClinetCount + (cs k).getClinetCount =
      ∑ j, (cs j).getClinetCount + c.getClinetCount := by
  have hrest : ∑ j ∈ Finset.univ.erase k, (Function.update cs k c j).getClinetCount =
      ∑ j ∈ Finset.univ.erase k, (cs j).getClinetCount := by
    refine Finset.sum_congr rfl fun j hj => ?_
    rw [Function.update_of_ne (Finset.ne_of_mem_erase hj)]
  rw [← Finset.add_sum_erase _ _ (Finset.mem_univ k), Function.update_self, hrest,
    ← Finset.add_sum_erase _ (fun j => (cs j).getClinetCount) (Finset.mem_univ k)]
  omega

/-- A merge, among the others. -/
theorem getClinetCount_update_merge {k : Fin (n + 1)} (h : (cs k).sockets.Nodup)
    (j : Fin (n + 1)) :
    (Function.update cs k (cs k).merge j).getClinetCount = (cs j).getClinetCount := by
  by_cases hjk : j = k
  · rw [hjk, Function.update_self, CellServer.getClinetCount_merge h]
  · rw [Function.update_of_ne hjk]

end ServerH
end EasyTcpServer
