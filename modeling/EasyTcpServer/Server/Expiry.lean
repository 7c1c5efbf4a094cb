import EasyTcpServer.Server.CheckTime

/-!
# Whom `CheckTime` removes

A pass of `CheckTime` erases clients from the map it walks.  It comes to every client it has
found at its start exactly once, and removes those whose sum is large enough, with one
`OnNetLeave` for each (`PassInv`).

* `expiry`: a client on which `resetDtHeart` is not called is removed at the first reading that
  is 60 seconds past its merge.
* `removed_of_silence`: in any case 60 seconds are past since `resetDtHeart` was last called on a
  client that is removed.  `removed_while_sending`: this is all that can be said.
-/

namespace EasyTcpServer
namespace ServerLoop

open CellServer (Loc ClearLoc Env)
open CellThread (Worker)

variable {insert : List Socket → Socket → List Socket} {s t : State} {k sockfd : Socket}
  {c : ClientPtr} {visited rest : List (Socket × ClientPtr)} {keys : List Socket}
  {now : ℤ} {maxSock : Socket}

/-! ## A pass -/

/-- What a pass does to a client whose sum is large enough, and to one whose sum is not. -/
def passEvents (p : Pass) (dt : ℤ) (c : ClientPtr) : List Event :=
  .heart c :: if clientHeartDeadTime ≤ p.dtHeart c + dt then [.leave c, .delete c] else []

/-- **What a pass has done** when it has come to the clients in `visited`, one after the other,
and still has to come to those in `rest`. -/
structure PassInv (s : State) (visited rest : List (Socket × ClientPtr)) : Prop where
  clients : s.pass.clients = visited ++ rest
  nodup : (s.pass.clients.map Prod.fst).Nodup
  own : ∀ q ∈ s.pass.clients, q.2.sockfd = q.1 ∧ q.2 ∈ s.thread.added
  log : s.thread.data.log = s.pass.log ++ visited.flatMap fun q => passEvents s.pass s.dt q.2
  map : ∀ (k : Socket) (c : ClientPtr), s.thread.data.clients[k]? = some c ↔
    (k, c) ∈ s.pass.clients ∧
      ((k, c) ∈ visited → s.pass.dtHeart c + s.dt < clientHeartDeadTime)
  visited : ∀ q ∈ visited, s.dtHeart q.2 = s.pass.dtHeart q.2 + s.dt
  rest : ∀ q ∈ rest, s.dtHeart q.2 = s.pass.dtHeart q.2

/-- At every place of `CheckTime` this holds. -/
def InPass (s : State) : Prop :=
  ∀ keys, s.thread.worker = .onRun (.checkTime keys) →
    ∃ visited rest, keys = rest.map Prod.fst ∧ PassInv s visited rest

/-- At its start a pass has come to no client. -/
theorem passInv_checkTime (hs : Inv s) : PassInv (s.checkTime now
      { s.thread with worker := .onRun (.checkTime s.thread.data.clients.keys) })
    [] s.thread.data.clients.toList := by
  refine ⟨rfl, ?_, ?_, (List.append_nil _).symm, ?_,
    fun q hq => absurd hq List.not_mem_nil, fun q _ => rfl⟩
  · dsimp only [State.checkTime]
    rw [Std.TreeMap.map_fst_toList_eq_keys]
    exact Std.TreeMap.nodup_keys
  · intro q hq
    obtain ⟨hsock, -, hadded⟩ :=
      hs.life.not_mem_queue (Std.TreeMap.mem_toList_iff_getElem?_eq_some.mp hq)
    exact ⟨hsock, hadded⟩
  · intro k c
    refine Std.TreeMap.mem_toList_iff_getElem?_eq_some.symm.trans ?_
    exact ⟨fun hin => ⟨hin, fun hnil => absurd hnil List.not_mem_nil⟩, fun hin => hin.1⟩

/-- The next client of a pass is in the map. -/
theorem PassInv.head (h : PassInv s visited ((k, c) :: rest)) :
    (k, c) ∉ visited ∧ s.thread.data.clients[k]? = some c := by
  have hnot : (k, c) ∉ visited := by
    intro hin
    have hnodup := h.nodup
    rw [h.clients, List.map_append, List.nodup_append] at hnodup
    exact hnodup.2.2 k (List.mem_map_of_mem (f := Prod.fst) hin) k List.mem_cons_self rfl
  refine ⟨hnot, (h.map k c).mpr ⟨?_, fun hin => absurd hin hnot⟩⟩
  rw [h.clients]
  exact List.mem_append_right _ List.mem_cons_self

/-- The other clients of a pass have other keys. -/
theorem PassInv.key_ne (h : PassInv s visited ((k, c) :: rest)) {q : Socket × ClientPtr}
    (hq : q ∈ visited ∨ q ∈ rest) : q.1 ≠ k := by
  have hnodup := h.nodup
  rw [h.clients, List.map_append, List.nodup_append] at hnodup
  rcases hq with hq | hq
  · exact hnodup.2.2 q.1 (List.mem_map_of_mem hq) k List.mem_cons_self
  · intro heq
    have hin := List.mem_map_of_mem (f := Prod.fst) hq
    rw [heq] at hin
    exact (List.nodup_cons.mp hnodup.2.1).1 hin

/-- The map behind the visit to the next client. -/
theorem PassInv.visit_map (h : PassInv s visited ((k, c) :: rest)) (k' : Socket)
    (c' : ClientPtr) :
    (if k = k' ∧ clientHeartDeadTime ≤ s.pass.dtHeart c + s.dt then none
      else s.thread.data.clients[k']?) = some c' ↔
      (k', c') ∈ s.pass.clients ∧
        ((k', c') ∈ visited ++ [(k, c)] → s.pass.dtHeart c' + s.dt < clientHeartDeadTime) := by
  have hin := h.head.2
  rw [List.mem_append, List.mem_singleton]
  by_cases hself : k = k' ∧ clientHeartDeadTime ≤ s.pass.dtHeart c + s.dt
  · obtain ⟨rfl, hdead⟩ := hself
    rw [if_pos ⟨rfl, hdead⟩]
    refine iff_of_false (by simp) ?_
    rintro ⟨hc', hlt⟩
    have hc : c' = c := by
      have hin' := (h.map k c').mpr ⟨hc', fun hv => absurd rfl (h.key_ne (.inl hv))⟩
      exact Option.some.inj (hin'.symm.trans hin)
    subst hc
    exact absurd (hlt (.inr rfl)) (not_lt.mpr hdead)
  · rw [if_neg hself, h.map]
    refine and_congr_right fun _ => ⟨fun hlt hv => ?_, fun hlt hv => hlt (.inl hv)⟩
    rcases hv with hv | hv
    · exact hlt hv
    · cases hv
      exact not_le.mp fun hdead => hself ⟨rfl, hdead⟩

/-- The pass comes to the next client. -/
theorem PassInv.visit (h : PassInv s visited ((k, c) :: rest)) (hpass : t.pass = s.pass)
    (hdt : t.dt = s.dt) (hadded : t.thread.added = s.thread.added)
    (hdtHeart : t.dtHeart = Function.update s.dtHeart c (s.dtHeart c + s.dt))
    (hlog : t.thread.data.log = s.thread.data.log ++ passEvents s.pass s.dt c)
    (hmap : ∀ k' : Socket, t.thread.data.clients[k']? =
      if k = k' ∧ clientHeartDeadTime ≤ s.pass.dtHeart c + s.dt then none
      else s.thread.data.clients[k']?) :
    PassInv t (visited ++ [(k, c)]) rest := by
  have hmem : (k, c) ∈ s.pass.clients := ((h.map k c).mp h.head.2).1
  have hsum := h.rest (k, c) List.mem_cons_self
  have hother {q : Socket × ClientPtr} (hq : q ∈ s.pass.clients) (hne : q.1 ≠ k) :
      t.dtHeart q.2 = s.dtHeart q.2 := by
    rw [hdtHeart]
    refine Function.update_of_ne ?_ _ _
    intro heq
    exact hne ((h.own q hq).1.symm.trans ((congrArg ClientPtr.sockfd heq).trans
      (h.own _ hmem).1))
  refine ⟨?_, ?_, ?_, ?_, ?_, ?_, ?_⟩
  · rw [hpass, h.clients, List.append_assoc]
    rfl
  · rw [hpass]
    exact h.nodup
  · rw [hpass, hadded]
    exact h.own
  · rw [hpass, hdt, hlog, h.log, List.append_assoc, List.flatMap_append]
    simp
  · intro k' c'
    rw [hpass, hdt, hmap]
    exact h.visit_map k' c'
  · intro q hq
    rw [hpass, hdt]
    rcases List.mem_append.mp hq with hq | hq
    · rw [hother (h.clients ▸ List.mem_append_left _ hq) (h.key_ne (.inl hq))]
      exact h.visited q hq
    · rw [List.mem_singleton.mp hq, hdtHeart, Function.update_self, hsum]
  · intro q hq
    rw [hpass, hother (h.clients ▸ List.mem_append_right _ (List.mem_cons_of_mem _ hq))
      (h.key_ne (.inr hq))]
    exact h.rest q (List.mem_cons_of_mem _ hq)

/-- A client is added while the pass is under way. -/
theorem PassInv.add (h : PassInv s visited rest) {c : ClientPtr} {moves : Bool}
    {u : Lifecycle.State} (hstep : Lifecycle.step s.thread (.add c moves) = some u) :
    PassInv (s.after (.add c moves) u) visited rest := by
  obtain ⟨⟨hnew, -⟩, rfl⟩ := Lifecycle.step_add hstep
  have hdtHeart {q : Socket × ClientPtr} (hq : q ∈ s.pass.clients) :
      Function.update s.dtHeart c 0 q.2 = s.dtHeart q.2 := by
    refine Function.update_of_ne ?_ _ _
    intro heq
    exact hnew (heq ▸ (h.own q hq).2)
  refine ⟨h.clients, h.nodup, ?_, h.log, h.map, ?_, ?_⟩
  · intro q hq
    exact ⟨(h.own q hq).1, List.mem_append_left _ (h.own q hq).2⟩
  · intro q hq
    exact (hdtHeart (h.clients ▸ List.mem_append_left _ hq)).trans (h.visited q hq)
  · intro q hq
    exact (hdtHeart (h.clients ▸ List.mem_append_right _ hq)).trans (h.rest q hq)

/-- The key at hand is that of the next client. -/
theorem InPass.head (h : InPass s) (hw : s.thread.worker = .onRun (.checkTime (sockfd :: keys))) :
    ∃ visited c rest, keys = rest.map Prod.fst ∧ PassInv s visited ((sockfd, c) :: rest) := by
  obtain ⟨visited, rest, hkeys, hpass⟩ := h _ hw
  cases rest with
  | nil => cases hkeys
  | cons q rest =>
    obtain ⟨k, c⟩ := q
    obtain ⟨rfl, rfl⟩ := List.cons.inj hkeys
    exact ⟨visited, c, rest, rfl, hpass⟩

theorem inPass_step {a : Act} (hs : Inv s) (h : InPass s) (hstep : Step insert s a t) :
    InPass t := by
  have helse {u : State} (hne : ∀ keys, u.thread.worker ≠ .onRun (.checkTime keys)) : InPass u :=
    fun keys hw => absurd hw (hne keys)
  cases hstep with
  | @thread a u hown hstep =>
    cases a with
    | run isRun i =>
      obtain ⟨l, d, n, hw, hrun, rfl⟩ := Lifecycle.step_run hstep
      rw [OwnStep, hw] at hown
      obtain ⟨-, hn⟩ := onRun_effect hown hrun
      exact helse fun keys hw' => hn.onRun hw'
    | exit =>
      obtain ⟨l, hw, rfl⟩ := Lifecycle.step_exit hstep
      obtain rfl := hs.exiting l hw
      exact helse fun keys hw' => (by cases hw')
    | destroy i =>
      obtain ⟨l, d, o, hw, -, rfl⟩ := Lifecycle.step_destroy hstep
      exact helse fun keys hw' => (ofDestory_ne o _).2 hw'
    | add c moves =>
      intro keys hw
      obtain ⟨hadd, rfl⟩ := Lifecycle.step_add hstep
      obtain ⟨visited, rest, hkeys, hpass⟩ := h keys hw
      exact ⟨visited, rest, hkeys, hpass.add hstep⟩
  | idle => exact helse fun keys hw' => (by cases hw')
  | gather => exact helse fun keys hw' => (by cases hw')
  | checkTime hw =>
    intro keys hw'
    cases hw'
    exact ⟨[], _, Std.TreeMap.map_fst_toList_eq_keys.symm, passInv_checkTime hs⟩
  | skip hw hnone =>
    obtain ⟨visited, c, rest, -, hpass⟩ := h.head hw
    exact absurd (hnone.symm.trans hpass.head.2) (by simp)
  | @keep sockfd keys c hw hc hlt =>
    obtain ⟨visited, c', rest, hkeys, hpass⟩ := h.head hw
    obtain rfl : c = c' := Option.some.inj (hc.symm.trans hpass.head.2)
    have hsum := hpass.rest (sockfd, c) List.mem_cons_self
    rw [hsum] at hlt
    intro keys' hw'
    cases hw'
    refine ⟨_, rest, hkeys, hpass.visit rfl rfl rfl rfl ?_ fun k' => ?_⟩
    · rw [passEvents, if_neg (not_le.mpr hlt)]
      rfl
    · rw [if_neg fun hand => not_le.mpr hlt hand.2]
      rfl
  | @remove sockfd keys c hw hc hdead =>
    obtain ⟨visited, c', rest, hkeys, hpass⟩ := h.head hw
    obtain rfl : c = c' := Option.some.inj (hc.symm.trans hpass.head.2)
    have hsum := hpass.rest (sockfd, c) List.mem_cons_self
    rw [hsum] at hdead
    intro keys' hw'
    cases hw'
    refine ⟨_, rest, hkeys, hpass.visit rfl rfl rfl rfl ?_ fun k' => ?_⟩
    · rw [passEvents, if_pos hdead]
      simp [CellServer.onClientLeave, CellServer.record]
    · refine (CellServer.getElem?_onClientLeave ..).trans (if_congr ?_ rfl rfl)
      exact (and_iff_left hdead).symm
  | resetDtHeart hmsg =>
    refine helse fun keys hw => ?_
    obtain ⟨_, _, _, _, hw'⟩ := worker_of_inNetMsg hmsg
    cases hw'.symm.trans hw
  | restart => exact helse fun keys hw' => (by cases hw')

theorem inPass_of_reachable (h : (serverLoop insert now maxSock).Reachable s) :
    Inv s ∧ InPass s := by
  refine h.invariant (I := fun s => Inv s ∧ InPass s) ⟨inv_init, fun keys hw => (by cases hw)⟩ ?_
  rintro s a t ⟨hs, hpass⟩ hstep
  exact ⟨inv_step hs (step_cases hstep), inPass_step hs hpass (step_cases hstep)⟩

/-! ## Expiry -/

/-- What `CheckTime` does to the clients, told from the readings of the clock. -/
structure Expiry (insert : List Socket → Socket → List Socket) (s : State) : Prop where
  /-- The counter of a client that was never reset is the reading of the last `CheckTime` minus
  `_oldTime` at the merge. -/
  counter : ∀ (k : Socket) (c : ClientPtr), s.thread.data.clients[k]? = some c →
    (s.watch c).resetAt = none → k ∉ pending s.thread.worker →
      s.dtHeart c = s.oldTime - (s.watch c).mergedAt
  /-- Every reading such a client has survived is too early. -/
  survives : ∀ (k : Socket) (c : ClientPtr), s.thread.data.clients[k]? = some c →
    (s.watch c).resetAt = none → k ∉ pending s.thread.worker →
      ∀ x ∈ (s.watch c).readings, x < (s.watch c).mergedAt + clientHeartDeadTime
  /-- When `CheckTime` comes to such a client, it removes it if its reading is late enough, and all
  readings before it were too early. -/
  expires : ∀ (k : Socket) (keys : List Socket),
    s.thread.worker = .onRun (.checkTime (k :: keys)) →
      ∃ c t, s.thread.data.clients[k]? = some c ∧ step insert s .heart = some t ∧
        ((s.watch c).resetAt = none →
          (t.thread.data.clients[k]? = none ↔
            (s.watch c).mergedAt + clientHeartDeadTime ≤ s.oldTime) ∧
          ∃ xs, (s.watch c).readings = xs ++ [s.oldTime] ∧
            ∀ x ∈ xs, x < (s.watch c).mergedAt + clientHeartDeadTime)
  /-- On its way a pass has come to some clients once, and to the others not yet. -/
  pass : InPass s
  /-- At its end it has come to all of them, and has kept those whose sums are small enough. -/
  passEnd : s.thread.worker = .onRun (.checkTime []) →
    s.thread.data.log =
        s.pass.log ++ s.pass.clients.flatMap (fun q => passEvents s.pass s.dt q.2) ∧
      (∀ q ∈ s.pass.clients, s.dtHeart q.2 = s.pass.dtHeart q.2 + s.dt) ∧
      ∀ (k : Socket) (c : ClientPtr), s.thread.data.clients[k]? = some c ↔
        (k, c) ∈ s.pass.clients ∧ s.pass.dtHeart c + s.dt < clientHeartDeadTime

variable (insert) in
/-- What `CheckTime` does to the client it comes to. -/
theorem exists_step_heart (hw : s.thread.worker = .onRun (.checkTime (k :: keys)))
    (hc : s.thread.data.clients[k]? = some c) :
    ∃ t, step insert s .heart = some t ∧
      (t.thread.data.clients[k]? = none ↔ clientHeartDeadTime ≤ s.dtHeart c + s.dt) := by
  obtain ⟨t, ht⟩ : ∃ t, step insert s .heart = some t := by
    simp only [step, hw, hc, Lifecycle.step, CellServer.onRun, CellServer.checkTime,
      Option.map_some]
    exact ⟨_, rfl⟩
  refine ⟨t, ht, ?_⟩
  cases step_cases ht with
  | skip hw' hnone =>
    obtain ⟨rfl, -⟩ : k = _ ∧ keys = _ := by simpa using hw.symm.trans hw'
    exact absurd (hnone.symm.trans hc) (by simp)
  | keep hw' hc' hlt =>
    obtain ⟨rfl, -⟩ : k = _ ∧ keys = _ := by simpa using hw.symm.trans hw'
    obtain rfl := Option.some.inj (hc.symm.trans hc')
    exact iff_of_false (fun hnone => absurd (hnone.symm.trans hc) (by simp)) (not_le.mpr hlt)
  | remove hw' hc' hdead =>
    obtain ⟨rfl, -⟩ : k = _ ∧ keys = _ := by simpa using hw.symm.trans hw'
    obtain rfl := Option.some.inj (hc.symm.trans hc')
    refine iff_of_true ?_ hdead
    exact (CellServer.getElem?_onClientLeave ..).trans (if_pos rfl)

/-- **Exact expiry.**  In every run, whatever the clock reads: a client that is never reset is
removed by the first `CheckTime` that reads at least 60 seconds more than `_oldTime` at its
merge, if it is still there; and a pass comes to every client once, and keeps the clients whose
sums are below 60 seconds. -/
theorem expiry (h : (serverLoop insert now maxSock).Reachable s) : Expiry insert s := by
  obtain ⟨hs, hpass⟩ := inPass_of_reachable h
  refine ⟨?_, ?_, ?_, hpass, ?_⟩
  · intro k c hc hreset hk
    rw [((hs.client k c hc).visited hk).1, Watch.base, hreset, Option.getD_none]
  · intro k c hc hreset hk
    exact ((hs.client k c hc).visited hk).2 hreset
  · intro k keys hw
    obtain ⟨visited, c, rest, -, hinv⟩ := hpass.head hw
    have hc := hinv.head.2
    obtain ⟨t, hstep, hiff⟩ := exists_step_heart insert hw hc
    obtain ⟨hsum, hreadings⟩ := (hs.client k c hc).waits (by rw [hw]; exact List.mem_cons_self)
    refine ⟨c, t, hc, hstep, fun hreset => ⟨hiff.trans ?_, hreadings hreset⟩⟩
    rw [hsum, Watch.base, hreset, Option.getD_none]
    omega
  · intro hw
    obtain ⟨visited, rest, hnil, hinv⟩ := hpass [] hw
    obtain rfl : rest = [] := List.map_eq_nil_iff.mp hnil.symm
    have hall : s.pass.clients = visited := hinv.clients.trans (List.append_nil _)
    refine ⟨hall ▸ hinv.log, hall ▸ hinv.visited, fun k c => ?_⟩
    rw [hinv.map, hall]
    exact and_congr_right fun hin => ⟨fun hlt => hlt hin, fun hlt _ => hlt⟩

/-- The client that stays for 59999 milliseconds and not for 60000, in a run to the second visit
of `CheckTime`.  It sends bytes before each of them. -/
def sendsTwice : List Act :=
  let iteration : List Act :=
    [.gather 0, .thread (.run true (.select (some ([3], [], [])))),
      .thread (.run true (.recv 10)), .thread (.run true .tau), .thread (.run true .tau),
      .thread (.run true .tau)]
  ([.thread (.add ⟨16, 1, 3⟩ false), .thread (.run true .tau), .thread (.run true .tau),
    .thread (.run true .tau)] : List Act) ++ iteration ++
    ([.checkTime 59999, .heart, .thread (.run true .tau), .thread (.run true .tau),
      .thread (.run true .tau)] : List Act) ++ iteration ++ [Act.checkTime 60000]

/-- What holds behind that run. -/
def SentTwice (s : State) : Prop :=
  s.thread.worker = .onRun (.checkTime [3]) ∧ s.oldTime = 60000 ∧
    s.thread.data.clients[(3 : Socket)]? = some ⟨16, 1, 3⟩ ∧
    s.watch ⟨16, 1, 3⟩ = ⟨0, [59999, 60000], none, some 59999⟩

instance (s : State) : Decidable (SentTwice s) := by
  unfold SentTwice
  infer_instance

theorem exists_sentTwice : ∃ s, (serverLoop fdSet 0 0).Reachable s ∧ SentTwice s := by
  obtain ⟨s, hs, hp⟩ := Machine.exists_reachable_of_run (M := serverLoop fdSet 0 0) sendsTwice
    (fun s => decide (SentTwice s)) (by decide +kernel)
  exact ⟨s, hs, of_decide_eq_true hp⟩

theorem expiry_second_reading :
    ∃ s t, (serverLoop fdSet 0 0).Reachable s ∧ Expiry fdSet s ∧ SentTwice s ∧
      step fdSet s .heart = some t ∧ t.thread.data.clients[(3 : Socket)]? = none := by
  obtain ⟨s, hs, hsent⟩ := exists_sentTwice
  have hexpiry := expiry hs
  obtain ⟨hw, hold, hc, hwatch⟩ := hsent
  obtain ⟨c, t, hc', hstep, hiff⟩ := hexpiry.expires _ _ hw
  obtain rfl := Option.some.inj (hc.symm.trans hc')
  refine ⟨s, t, hs, hexpiry, ⟨hw, hold, hc, hwatch⟩, hstep, (hiff (by rw [hwatch])).1.mpr ?_⟩
  rw [hwatch, hold]
  decide

/-! ## Silence -/

/-- `CheckTime` removes a client in one way. -/
theorem removed_cases {a : Act} (hw : s.thread.worker = .onRun (.checkTime keys))
    (hstep : Step insert s a t) (hc : s.thread.data.clients[k]? = some c)
    (hgone : t.thread.data.clients[k]? ≠ some c) :
    k ∈ keys ∧ clientHeartDeadTime ≤ s.dtHeart c + s.dt := by
  cases hstep with
  | @thread a u hown hstep =>
    cases a with
    | run isRun i =>
      obtain ⟨l, d, n, hw', hrun, rfl⟩ := Lifecycle.step_run hstep
      obtain rfl : l = .checkTime keys := by simpa using hw'.symm.trans hw
      rw [OwnStep, hw] at hown
      cases keys with
      | nil =>
        cases i <;> cases hrun
        exact absurd hc hgone
      | cons k' keys => exact absurd trivial hown
    | exit =>
      obtain ⟨l, hw', -⟩ := Lifecycle.step_exit hstep
      cases hw.symm.trans hw'
    | destroy i =>
      obtain ⟨l, d, o, hw', -⟩ := Lifecycle.step_destroy hstep
      cases hw.symm.trans hw'
    | add c' moves =>
      obtain ⟨-, rfl⟩ := Lifecycle.step_add hstep
      exact absurd hc hgone
  | idle hw' => cases hw.symm.trans hw'
  | gather hw' => cases hw.symm.trans hw'
  | checkTime hw' => cases hw.symm.trans hw'
  | skip => exact absurd hc hgone
  | keep => exact absurd hc hgone
  | @remove sockfd keys' c' hw' hc' hdead =>
    obtain rfl : keys = sockfd :: keys' := by simpa using hw.symm.trans hw'
    have herase : ((s.thread.data.record [.heart c']).onClientLeave c' sockfd).clients[k]? =
        if sockfd = k then none else s.thread.data.clients[k]? :=
      CellServer.getElem?_onClientLeave ..
    by_cases hk : k = sockfd
    · subst hk
      obtain rfl : c = c' := Option.some.inj (hc.symm.trans hc')
      exact ⟨List.mem_cons_self, hdead⟩
    · refine absurd (herase.trans ?_) hgone
      rw [if_neg (Ne.symm hk), hc]
  | resetDtHeart => exact absurd hc hgone
  | restart hw' => cases hw.symm.trans hw'

/-- **Whom `CheckTime` removes.**  A client that it removes has a counter that has been running
for 60 seconds: from the merge, or from the last time a handler called `resetDtHeart` on it. -/
theorem removed_of_silence {a : Act} (h : (serverLoop insert now maxSock).Reachable s)
    (hw : s.thread.worker = .onRun (.checkTime keys)) (hstep : step insert s a = some t)
    (hc : s.thread.data.clients[k]? = some c) (hgone : t.thread.data.clients[k]? ≠ some c) :
    (s.watch c).base + clientHeartDeadTime ≤ s.oldTime := by
  obtain ⟨hk, hdead⟩ := removed_cases hw (step_cases hstep) hc hgone
  obtain ⟨hsum, -⟩ := ((inv_of_reachable h).client k c hc).waits (by rw [hw]; exact hk)
  omega

/-- Behind that run the client is removed. -/
theorem SentTwice.removed (h : SentTwice s) (hs : (serverLoop fdSet 0 0).Reachable s) :
    ∃ t, step fdSet s .heart = some t ∧ t.thread.data.clients[(3 : Socket)]? = none := by
  obtain ⟨hw, hold, hc, hwatch⟩ := h
  obtain ⟨t, hstep, hiff⟩ := exists_step_heart fdSet hw hc
  obtain ⟨hsum, -⟩ := ((inv_of_reachable hs).client 3 _ hc).waits
    (by rw [hw]; exact List.mem_singleton_self _)
  refine ⟨t, hstep, hiff.mpr ?_⟩
  rw [hsum, Watch.base, hwatch, hold]
  decide

theorem removed_of_silence_second_reading :
    ∃ s, (serverLoop fdSet 0 0).Reachable s ∧ SentTwice s ∧
      (s.watch ⟨16, 1, 3⟩).base + clientHeartDeadTime ≤ s.oldTime := by
  obtain ⟨s, hs, hsent⟩ := exists_sentTwice
  obtain ⟨t, hstep, hgone⟩ := hsent.removed hs
  exact ⟨s, hs, hsent, removed_of_silence hs hsent.1 hstep hsent.2.2.1 (by rw [hgone]; simp)⟩

/-- **A client that is removed while it sends.**  It has been heard of when the clock had read
59999, and is removed when it reads 60000. -/
theorem removed_while_sending : ∃ s t c,
    (serverLoop fdSet 0 0).Reachable s ∧ s.thread.worker = .onRun (.checkTime [3]) ∧
      step fdSet s .heart = some t ∧ s.thread.data.clients[(3 : Socket)]? = some c ∧
      t.thread.data.clients[(3 : Socket)]? = none ∧
      ¬ (s.watch c).heardAt.getD (s.watch c).mergedAt + clientHeartDeadTime ≤ s.oldTime := by
  obtain ⟨s, hs, hsent⟩ := exists_sentTwice
  obtain ⟨t, hstep, hgone⟩ := hsent.removed hs
  obtain ⟨hw, hold, hc, hwatch⟩ := hsent
  refine ⟨s, t, _, hs, hw, hstep, hc, hgone, ?_⟩
  rw [hwatch, hold]
  decide

end ServerLoop
end EasyTcpServer
