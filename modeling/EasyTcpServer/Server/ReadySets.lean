import Mathlib.Logic.Relation
import EasyTcpServer.Server.Lifecycle

/-!
# The passes over the ready sets

`readData` and `writeData` are written twice.  With `fd_array` the loop runs over the ready
descriptors and looks each of them up in `_clients`.  Without it the loop runs over `_clients`
and asks `FD_ISSET` for each client.

The second loop removes a client that fails while its iterator stands on it.  The iterator is
moved on before the `erase`, as it has to be, and then once more at the end of the loop body.
So the client behind one that fails is never looked at, and behind the last client the iterator
is moved past `end()`.

* `passArray`, `passMap`: the two loops.  `onRun` goes through the first descriptor by
  descriptor: `goesThrough_onArray`.
* `Complete`: what either is for.
* `passMap_complete_iff`: the second loop is complete exactly when behind every ready client
  that fails there is another, and that one is not ready.
-/

namespace EasyTcpServer

open CellServer (Loc Env)

namespace ReadySets

/-- The two functions. -/
inductive Op where
  | readData
  | writeData
  deriving DecidableEq, Repr

/-- What is recorded of a client that is served, with success or not. -/
def Op.events : Op → ClientPtr → Bool → List Event
  | .readData, c, true => [.recv c]
  | .readData, c, false => [.recv c, .recvCount c]
  | .writeData, c, _ => [.send c]

variable (op : Op) (fails : ClientPtr → Bool)

/-- The loop body for a client that is ready: `recvData` or `sendDataReal`, and what follows
when the result is -1. -/
def serve (d : CellServer) (p : Socket × ClientPtr) : CellServer :=
  if fails p.2 then (d.record (op.events p.2 true)).onClientLeave p.2 p.1
  else d.record (op.events p.2 false)

/-- The loop over `fd_array`: the server, and the clients served. -/
def passArray (d : CellServer) : List Socket → CellServer × List ClientPtr
  | [] => (d, [])
  | fd :: fds =>
    match d.clients[fd]? with
    | none => passArray d fds
    | some c =>
      let r := passArray (serve op fails d (fd, c)) fds
      (r.1, c :: r.2)

/-- The loop over `_clients`, with the entries from the iterator on.  It has no result when the
iterator is moved past the end. -/
def passMap (fds : List Socket) (d : CellServer) :
    List (Socket × ClientPtr) → Option (CellServer × List ClientPtr)
  | [] => some (d, [])
  | (k, c) :: iter =>
    if c.sockfd ∈ fds then
      if fails c then
        -- `iter++` in front of the `erase`, and `iter++` at the end of the body
        match iter with
        | [] => none
        | _ :: iter => (passMap fds (serve op fails d (k, c)) iter).map fun r => (r.1, c :: r.2)
      else (passMap fds (serve op fails d (k, c)) iter).map fun r => (r.1, c :: r.2)
    else passMap fds d iter

/-- The functions with `fd_array`. -/
def onArray (d : CellServer) (fds : List Socket) : CellServer × List ClientPtr :=
  passArray op fails d fds

/-- The functions without it. -/
def onMap (d : CellServer) (fds : List Socket) : Option (CellServer × List ClientPtr) :=
  passMap op fails fds d d.clients.toList

/-- A client is in the map under its own descriptor. -/
def OwnKeys (d : CellServer) : Prop :=
  ∀ (k : Socket) (c : ClientPtr), d.clients[k]? = some c → c.sockfd = k

/-- **What a pass is for**: every client whose descriptor is ready is served once, and of these
the ones that fail are removed from the map, and no others. -/
structure Complete (d : CellServer) (fds : List Socket) (r : CellServer × List ClientPtr) :
    Prop where
  served_nodup : r.2.Nodup
  served : ∀ c, c ∈ r.2 ↔ c.sockfd ∈ fds ∧ d.clients[c.sockfd]? = some c
  clients : ∀ k : Socket,
    r.1.clients[k]? = (d.clients[k]?).filter fun c => !(decide (k ∈ fds) && fails c)

/-! ## Serving a list of clients -/

variable {op fails} {d : CellServer} {fds : List Socket} {ps iter : List (Socket × ClientPtr)}

/-- Every client in the map of a server's thread is there under its own descriptor. -/
theorem ownKeys_of_reachable {s : Lifecycle.State} (h : serverThread.Reachable s) :
    OwnKeys s.data := by
  obtain ⟨kept, hinv⟩ := Lifecycle.exists_inv h
  exact fun k c hc => (hinv.accounted.map_mem k c hc).1

theorem getElem?_serve (p : Socket × ClientPtr) (k : Socket) :
    (serve op fails d p).clients[k]? =
      if p.1 = k ∧ fails p.2 = true then none else d.clients[k]? := by
  unfold serve
  by_cases hfails : fails p.2 = true
  · rw [if_pos hfails]
    show (d.clients.erase p.1)[k]? = _
    rw [Std.TreeMap.getElem?_erase]
    simp [hfails]
  · rw [if_neg hfails, if_neg fun h => hfails h.2]
    rfl

theorem getElem?_serveAll (k : Socket) :
    (ps.foldl (serve op fails) d).clients[k]? =
      if ∃ p ∈ ps, p.1 = k ∧ fails p.2 = true then none else d.clients[k]? := by
  induction ps generalizing d with
  | nil => simp
  | cons p ps ih =>
    rw [List.foldl_cons, ih, getElem?_serve]
    simp only [List.exists_mem_cons_iff]
    by_cases hp : p.1 = k ∧ fails p.2 = true
    · rw [if_pos hp, if_pos (Or.inl hp), ite_self]
    · simp only [hp, if_false, false_or]

/-- Serving some entries of the map is complete exactly when they are the ready ones. -/
theorem complete_serveAll_iff (hkeys : OwnKeys d)
    (hps : ∀ p ∈ ps, p.1 ∈ fds ∧ d.clients[p.1]? = some p.2) (hnodup : ps.Nodup) :
    Complete fails d fds (ps.foldl (serve op fails) d, ps.map Prod.snd) ↔
      ∀ k c, k ∈ fds → d.clients[k]? = some c → (k, c) ∈ ps := by
  have hsnd : ∀ p ∈ ps, p.1 = p.2.sockfd := fun p hp => (hkeys p.1 p.2 (hps p hp).2).symm
  have hmem (c : ClientPtr) : c ∈ ps.map Prod.snd ↔ (c.sockfd, c) ∈ ps := by
    rw [List.mem_map]
    constructor
    · rintro ⟨p, hp, rfl⟩
      rwa [← hsnd p hp]
    · exact fun h => ⟨_, h, rfl⟩
  constructor
  · intro h k c hk hc
    obtain rfl := hkeys k c hc
    exact (hmem c).mp ((h.served c).mpr ⟨hk, hc⟩)
  · intro hall
    refine ⟨hnodup.map_on fun p hp q hq heq => ?_, fun c => ⟨fun hc => ?_, fun hc => ?_⟩,
      fun k => ?_⟩
    · exact Prod.ext ((hsnd p hp).trans (heq ▸ (hsnd q hq).symm)) heq
    · exact hps _ ((hmem c).mp hc)
    · exact (hmem c).mpr (hall _ c hc.1 hc.2)
    · rw [getElem?_serveAll]
      by_cases hex : ∃ p ∈ ps, p.1 = k ∧ fails p.2 = true
      · obtain ⟨p, hp, rfl, hfails⟩ := hex
        rw [if_pos ⟨p, hp, rfl, hfails⟩, (hps p hp).2, Option.filter_some, hfails,
          decide_eq_true (hps p hp).1]
        rfl
      · rw [if_neg hex]
        cases hc : d.clients[k]? with
        | none => rfl
        | some c =>
          rw [Option.filter_some, if_pos]
          rw [Bool.not_eq_true', Bool.and_eq_false_iff, decide_eq_false_iff_not]
          by_contra hcon
          rw [not_or, not_not, Bool.not_eq_false] at hcon
          exact hex ⟨(k, c), hall k c hcon.1 hc, rfl, hcon.2⟩

/-! ## The loop over `fd_array` -/

/-- The entries of the map that an array of descriptors finds. -/
def found (d : CellServer) (fds : List Socket) : List (Socket × ClientPtr) :=
  fds.filterMap fun fd => (d.clients[fd]?).map fun c => (fd, c)

theorem mem_found {p : Socket × ClientPtr} :
    p ∈ found d fds ↔ p.1 ∈ fds ∧ d.clients[p.1]? = some p.2 := by
  obtain ⟨k, c⟩ := p
  simp only [found, List.mem_filterMap, Option.map_eq_some_iff, Prod.mk.injEq]
  constructor
  · rintro ⟨fd, hfd, c', hc, rfl, rfl⟩
    exact ⟨hfd, hc⟩
  · rintro ⟨hk, hc⟩
    exact ⟨k, hk, c, hc, rfl, rfl⟩

theorem nodup_found (hnodup : fds.Nodup) : (found d fds).Nodup := by
  refine hnodup.filterMap fun fd fd' p hp hp' => ?_
  obtain ⟨c, -, rfl⟩ := Option.map_eq_some_iff.mp (Option.mem_def.mp hp)
  obtain ⟨c', -, heq⟩ := Option.map_eq_some_iff.mp (Option.mem_def.mp hp')
  exact (congrArg Prod.fst heq).symm

theorem passArray_eq (hnodup : fds.Nodup) : passArray op fails d fds =
    ((found d fds).foldl (serve op fails) d, (found d fds).map Prod.snd) := by
  induction fds generalizing d with
  | nil => rfl
  | cons fd fds ih =>
    obtain ⟨hfd, hnodup⟩ := List.nodup_cons.mp hnodup
    rw [passArray]
    cases hc : d.clients[fd]? with
    | none =>
      have hfound : found d (fd :: fds) = found d fds := List.filterMap_cons_none (by rw [hc]; rfl)
      rw [hfound]
      exact ih hnodup
    | some c =>
      have hfound : found d (fd :: fds) = (fd, c) :: found d fds :=
        List.filterMap_cons_some (by rw [hc]; rfl)
      -- the client that is served has a descriptor of its own
      have hrest : found (serve op fails d (fd, c)) fds = found d fds := by
        refine List.filterMap_congr fun fd' hfd' => ?_
        rw [getElem?_serve, if_neg]
        rintro ⟨rfl, -⟩
        exact hfd hfd'
      simp only [hfound, ih hnodup, hrest, List.foldl_cons, List.map_cons]

theorem onArray_complete (hkeys : OwnKeys d) (hnodup : fds.Nodup) :
    Complete fails d fds (onArray op fails d fds) := by
  rw [onArray, passArray_eq hnodup]
  refine (complete_serveAll_iff hkeys (fun p hp => mem_found.mp hp) (nodup_found hnodup)).mpr ?_
  exact fun k c hk hc => mem_found.mpr ⟨hk, hc⟩

/-- A step of `onRun` that stays in it. -/
def Goes (a b : CellServer × Loc) : Prop := ∃ i, a.1.onRun true a.2 i = some (b.1, .goto b.2)

/-- The steps of `onRun` in the loop over these descriptors lead from `d` to `d'`. -/
def GoesThrough (d : CellServer) (fds : List Socket) (d' : CellServer) : Op → Prop
  | .readData => ∀ fdWrite fdExc : List Socket,
      Relation.ReflTransGen Goes (d, .read fds fdWrite fdExc) (d', .read [] fdWrite fdExc)
  | .writeData => ∀ fdExc : Option (List Socket),
      Relation.ReflTransGen Goes (d, .write fds fdExc) (d', .write [] fdExc)

theorem goes_writeData (fdExc : Option (List Socket)) :
    Relation.ReflTransGen Goes (d, .write fds fdExc)
      ((passArray .writeData fails d fds).1, .write [] fdExc) := by
  induction fds generalizing d with
  | nil => exact .refl
  | cons fd fds ih =>
    rw [passArray]
    cases hc : d.clients[fd]? with
    | none =>
      refine .head (b := (d, .write fds fdExc)) ?_ ih
      exact ⟨.tau, by simp [CellServer.onRun, CellServer.writeData, hc]⟩
    | some c =>
      refine .head (b := (serve .writeData fails d (fd, c), .write fds fdExc)) ?_ ih
      refine ⟨.send (if fails c then -1 else 0), ?_⟩
      by_cases hfails : fails c = true <;>
        simp [CellServer.onRun, CellServer.writeData, hc, serve, Op.events, hfails]

theorem goes_readData (fdWrite fdExc : List Socket) :
    Relation.ReflTransGen Goes (d, .read fds fdWrite fdExc)
      ((passArray .readData fails d fds).1, .read [] fdWrite fdExc) := by
  induction fds generalizing d with
  | nil => exact .refl
  | cons fd fds ih =>
    rw [passArray]
    cases hc : d.clients[fd]? with
    | none =>
      refine .head (b := (d, .read fds fdWrite fdExc)) ?_ ih
      exact ⟨.tau, by simp [CellServer.onRun, CellServer.readData, hc]⟩
    | some c =>
      by_cases hfails : fails c = true
      · refine .head (b := (serve .readData fails d (fd, c), .read fds fdWrite fdExc)) ?_ ih
        exact ⟨.recv (-1), by simp [CellServer.onRun, CellServer.readData, hc, serve, Op.events,
          hfails]⟩
      · -- through the loop of `recvData`, with no message in it
        refine .head (b := (serve .readData fails d (fd, c), .handle c fds fdWrite fdExc)) ?_
          (.head ⟨.tau, rfl⟩ ih)
        exact ⟨.recv 0, by simp [CellServer.onRun, CellServer.readData, hc, serve, Op.events,
          hfails]⟩

/-- **The loop over `fd_array` is a run of `onRun`**, descriptor by descriptor. -/
theorem goesThrough_onArray (d : CellServer) (fds : List Socket) :
    GoesThrough d fds (onArray op fails d fds).1 op := by
  cases op with
  | readData => exact goes_readData
  | writeData => exact goes_writeData

/-! ## The loop over the map -/

section Visits

variable {α : Type*} (ready fails : α → Bool)

/-- What the second loop looks at: the ready entries, except those behind one that is ready and
fails.  It has no result when there is none behind such an entry. -/
def visits : List α → Option (List α)
  | [] => some []
  | a :: iter =>
    if ready a then
      if fails a then
        match iter with
        | [] => none
        | _ :: iter => (visits iter).map (a :: ·)
      else (visits iter).map (a :: ·)
    else visits iter

/-- Behind every entry that is ready and fails there is another, and that one is not ready. -/
def Spaced : List α → Prop
  | [] => True
  | a :: iter => (ready a = true → fails a = true → ∃ b ∈ iter.head?, ready b = false) ∧ Spaced iter

instance decidableSpaced : (l : List α) → Decidable (Spaced ready fails l)
  | [] => isTrue trivial
  | a :: iter =>
    have := decidableSpaced iter
    inferInstanceAs (Decidable ((ready a = true → fails a = true →
      ∃ b ∈ iter.head?, ready b = false) ∧ Spaced ready fails iter))

variable {ready fails} {l s : List α}

/-- No entry is looked at that is not ready, and the order is that of the map. -/
theorem visits_sublist (h : visits ready fails l = some s) : s.Sublist (l.filter ready) := by
  fun_induction visits ready fails l generalizing s with
  | case1 => exact Option.some.inj h ▸ List.Sublist.refl _
  | case2 => cases h
  | case3 a hready _ b iter ih =>
    obtain ⟨s', hs', rfl⟩ := Option.map_eq_some_iff.mp h
    rw [List.filter_cons_of_pos hready]
    exact ((ih hs').trans ((List.sublist_cons_self b iter).filter ready)).cons_cons a
  | case4 a iter hready _ ih =>
    obtain ⟨s', hs', rfl⟩ := Option.map_eq_some_iff.mp h
    rw [List.filter_cons_of_pos hready]
    exact (ih hs').cons_cons a
  | case5 a iter hready ih =>
    rw [List.filter_cons_of_neg hready]
    exact ih h

/-- **All ready entries are looked at exactly when none stands behind one that fails.** -/
theorem visits_eq_filter_iff :
    visits ready fails l = some (l.filter ready) ↔ Spaced ready fails l := by
  fun_induction visits ready fails l with
  | case1 => exact iff_of_true rfl trivial
  | case2 a hready hfails =>
    refine iff_of_false (by simp) fun h => ?_
    obtain ⟨b, hb, -⟩ := h.1 hready hfails
    cases hb
  | case3 a hready hfails b iter ih =>
    rw [List.filter_cons_of_pos hready, Option.map_eq_some_iff]
    by_cases hb : ready b = true
    · -- the entry behind is ready and is passed over
      refine iff_of_false ?_ fun h => ?_
      · rintro ⟨s, hs, heq⟩
        have hlen := (visits_sublist hs).length_le
        rw [(List.cons.inj heq).2, List.filter_cons_of_pos hb, List.length_cons] at hlen
        omega
      · obtain ⟨b', hb', hno⟩ := h.1 hready hfails
        obtain rfl := Option.some.inj hb'
        rw [hb] at hno
        cases hno
    · rw [List.filter_cons_of_neg hb]
      constructor
      · rintro ⟨s, hs, heq⟩
        refine ⟨fun _ _ => ⟨b, rfl, Bool.eq_false_iff.mpr hb⟩, fun h => absurd h hb, ih.mp ?_⟩
        rw [hs, (List.cons.inj heq).2]
      · exact fun h => ⟨_, ih.mpr h.2.2, rfl⟩
  | case4 a iter hready hfails ih =>
    rw [List.filter_cons_of_pos hready, Option.map_eq_some_iff]
    constructor
    · rintro ⟨s, hs, heq⟩
      refine ⟨fun _ h => absurd h hfails, ih.mp ?_⟩
      rw [hs, (List.cons.inj heq).2]
    · exact fun h => ⟨_, ih.mpr h.2, rfl⟩
  | case5 a iter hready ih =>
    rw [List.filter_cons_of_neg hready, ih]
    exact ⟨fun h => ⟨fun h' => absurd h' hready, h⟩, And.right⟩

end Visits

variable (fails fds) in
/-- The clients behind whose descriptors the second loop does not go wrong: behind every ready
client that fails there is another in the map, and its descriptor is not ready. -/
def SafeOrder (d : CellServer) : Prop :=
  Spaced (fun p => decide (p.2.sockfd ∈ fds)) (fun p => fails p.2) d.clients.toList

instance (fails : ClientPtr → Bool) (fds : List Socket) (d : CellServer) :
    Decidable (SafeOrder fails fds d) := by
  unfold SafeOrder
  infer_instance

theorem passMap_eq : passMap op fails fds d iter =
    (visits (fun p => decide (p.2.sockfd ∈ fds)) (fun p => fails p.2) iter).map fun ps =>
      (ps.foldl (serve op fails) d, ps.map Prod.snd) := by
  fun_induction passMap op fails fds d iter with
  | case1 => rfl
  | case2 d k c hready hfails => simp [visits, hready, hfails]
  | case3 d k c hready hfails _ iter ih =>
    rw [visits.eq_def, ih]
    dsimp only
    rw [if_pos (decide_eq_true hready), if_pos hfails, Option.map_map, Option.map_map]
    rfl
  | case4 d k c iter hready hfails ih =>
    rw [visits.eq_def, ih]
    dsimp only
    rw [if_pos (decide_eq_true hready), if_neg hfails, Option.map_map, Option.map_map]
    rfl
  | case5 d k c iter hready ih =>
    rw [visits.eq_def, ih]
    dsimp only
    rw [if_neg (by simpa using hready)]

theorem nodup_toList (hkeys : OwnKeys d) : d.clients.toList.Nodup :=
  (Lifecycle.nodup_values hkeys).of_map _

/-- **The loop over the map is complete exactly when the order is safe.** -/
theorem onMap_complete_iff (hkeys : OwnKeys d) :
    (∃ r, onMap op fails d fds = some r ∧ Complete fails d fds r) ↔ SafeOrder fails fds d := by
  have hmem {p : Socket × ClientPtr} :
      p ∈ d.clients.toList.filter (fun p => decide (p.2.sockfd ∈ fds)) ↔
        p.1 ∈ fds ∧ d.clients[p.1]? = some p.2 := by
    rw [List.mem_filter, decide_eq_true_eq, Std.TreeMap.mem_toList_iff_getElem?_eq_some, and_comm]
    exact and_congr_left fun hp => by rw [hkeys p.1 p.2 hp]
  have hnodup := (nodup_toList hkeys).filter fun p => decide (p.2.sockfd ∈ fds)
  rw [SafeOrder, ← visits_eq_filter_iff, onMap, passMap_eq]
  constructor
  · rintro ⟨r, hr, hcomplete⟩
    obtain ⟨ps, hps, rfl⟩ := Option.map_eq_some_iff.mp hr
    have hsub := visits_sublist hps
    have hall := (complete_serveAll_iff hkeys (fun p hp => hmem.mp (hsub.subset hp))
      (hnodup.sublist hsub)).mp hcomplete
    have hlength := (hnodup.subperm fun p hp =>
      hall p.1 p.2 (hmem.mp hp).1 (hmem.mp hp).2).length_le
    rw [hps, hsub.eq_of_length_le hlength]
  · intro h
    refine ⟨_, by rw [h]; rfl, ?_⟩
    exact (complete_serveAll_iff hkeys (fun p hp => hmem.mp hp) hnodup).mpr
      fun k c hk hc => hmem.mpr ⟨hk, hc⟩

/-- Two complete passes serve the same clients and leave the same map. -/
theorem Complete.agree {r r' : CellServer × List ClientPtr} (h : Complete fails d fds r)
    (h' : Complete fails d fds r') :
    r.2.Perm r'.2 ∧ ∀ k : Socket, r.1.clients[k]? = r'.1.clients[k]? := by
  refine ⟨?_, fun k => (h.clients k).trans (h'.clients k).symm⟩
  rw [List.perm_ext_iff_of_nodup h.served_nodup h'.served_nodup]
  exact fun c => (h.served c).trans (h'.served c).symm

/-- **The two loops.**  For every map, every ready set and every outcome of `recvData` or of
`sendDataReal`: the loop over `fd_array` is what `onRun` goes through, and it is complete.  The
loop over the map is complete, and then agrees with it, exactly when behind every ready client
that fails there is another client, and that one is not ready. -/
theorem readySets_iff (op : Op) (fails : ClientPtr → Bool) (d : CellServer) (fds : List Socket)
    (hkeys : OwnKeys d) (hnodup : fds.Nodup) :
    GoesThrough d fds (onArray op fails d fds).1 op ∧
      Complete fails d fds (onArray op fails d fds) ∧
      ((∃ r, onMap op fails d fds = some r ∧ Complete fails d fds r ∧
          r.2.Perm (onArray op fails d fds).2 ∧
          ∀ k : Socket, r.1.clients[k]? = (onArray op fails d fds).1.clients[k]?) ↔
        SafeOrder fails fds d) := by
  have harray : Complete fails d fds (onArray op fails d fds) := onArray_complete hkeys hnodup
  refine ⟨goesThrough_onArray d fds, harray, ⟨?_, fun h => ?_⟩⟩
  · rintro ⟨r, hr, hcomplete, -⟩
    exact (onMap_complete_iff hkeys).mp ⟨r, hr, hcomplete⟩
  · obtain ⟨r, hr, hcomplete⟩ : ∃ r, onMap op fails d fds = some r ∧ Complete fails d fds r :=
      (onMap_complete_iff hkeys).mpr h
    exact ⟨r, hr, hcomplete, hcomplete.agree harray⟩

/-- Three clients. -/
def three : CellServer :=
  { CellServer.new with
    clients := ((CellServer.new.clients.insert 5 ⟨0, 1, 5⟩).insert 6 ⟨1, 2, 6⟩).insert 7 ⟨2, 3, 7⟩ }

theorem ownKeys_three : OwnKeys three := by
  intro k c hc
  have hmem : (k, c) ∈ three.clients.toList := Std.TreeMap.mem_toList_iff_getElem?_eq_some.mpr hc
  have hlist : three.clients.toList = [(5, ⟨0, 1, 5⟩), (6, ⟨1, 2, 6⟩), (7, ⟨2, 3, 7⟩)] := by decide
  rw [hlist] at hmem
  simp only [List.mem_cons, Prod.mk.injEq, List.not_mem_nil, or_false] at hmem
  rcases hmem with ⟨rfl, rfl⟩ | ⟨rfl, rfl⟩ | ⟨rfl, rfl⟩ <;> rfl

/-- The first client fails, and the one behind it has nothing to read. -/
theorem readySets_first_fails :
    ∃ r, onMap .readData (fun c => c.id = 1) three [5, 7] = some r ∧
      Complete (fun c => c.id = 1) three [5, 7] r := by
  obtain ⟨r, hr, hcomplete, -⟩ := (readySets_iff .readData (fun c => c.id = 1) three [5, 7]
    ownKeys_three (by decide)).2.2.mpr (by decide)
  exact ⟨r, hr, hcomplete⟩

/-- The first of three ready clients fails, and the second is passed over; the last of them
fails, and the iterator is moved past the end. -/
theorem onMap_passes_over :
    OwnKeys three ∧
      (¬ ∃ r, onMap .readData (fun c => c.id = 1) three [5, 6, 7] = some r ∧
        Complete (fun c => c.id = 1) three [5, 6, 7] r) ∧
      onMap .writeData (fun c => c.id = 3) three [5, 6, 7] = none :=
  ⟨ownKeys_three, fun h => absurd ((onMap_complete_iff ownKeys_three).mp h) (by decide),
    by decide⟩

end ReadySets
end EasyTcpServer
