import EasyTcpServer.Server.ServerLoop

/-!
# `CheckTime`

The counter of a client is the sum of the differences between the readings of `CheckTime`.  The
sum telescopes: it is the last reading minus the value `_oldTime` had when the client was
merged, or when a handler last called `resetDtHeart` on it.  Nothing else enters into it.  In
particular it does not matter whether the client sends anything, because the call of
`resetDtHeart` in `recvData` is commented out.

* `Inv`, `inv_step`: the counters, throughout a run.
* `ClientOk`: while `CheckTime` has still to come to a client, its counter lags behind by `dt`.
-/

namespace EasyTcpServer
namespace ServerLoop

open CellServer (Loc ClearLoc Env)
open CellThread (Worker)

/-- The keys `CheckTime` has still to come to. -/
def pending : Worker Loc ClearLoc → List Socket
  | .onRun (.checkTime keys) => keys
  | _ => []

/-- What holds of a client in the map, up to the visit of `CheckTime` and behind it. -/
structure ClientOk (s : State) (k : Socket) (c : ClientPtr) : Prop where
  waits : k ∈ pending s.thread.worker → s.dtHeart c + s.dt = s.oldTime - (s.watch c).base ∧
    ((s.watch c).resetAt = none → ∃ xs, (s.watch c).readings = xs ++ [s.oldTime] ∧
      ∀ x ∈ xs, x < (s.watch c).mergedAt + clientHeartDeadTime)
  visited : k ∉ pending s.thread.worker → s.dtHeart c = s.oldTime - (s.watch c).base ∧
    ((s.watch c).resetAt = none →
      ∀ x ∈ (s.watch c).readings, x < (s.watch c).mergedAt + clientHeartDeadTime)

/-- **The invariant.** -/
structure Inv (s : State) : Prop where
  life : Life s
  exiting : ∀ l, s.thread.worker = .exiting l → l = .broken
  nodup : (pending s.thread.worker).Nodup
  waiting : ∀ c ∈ Lifecycle.queue s.thread.data, s.dtHeart c = 0
  client : ∀ (k : Socket) (c : ClientPtr), s.thread.data.clients[k]? = some c → ClientOk s k c

variable {insert : List Socket → Socket → List Socket} {s t : State} {k : Socket} {c : ClientPtr}

/-! ## Clients that are left alone -/

theorem ClientOk.congr (h : ClientOk s k c)
    (hpending : k ∈ pending t.thread.worker ↔ k ∈ pending s.thread.worker)
    (hdtHeart : t.dtHeart c = s.dtHeart c) (hold : t.oldTime = s.oldTime) (hdt : t.dt = s.dt)
    (hwatch : ∃ o, t.watch c = { s.watch c with heardAt := o }) : ClientOk t k c := by
  obtain ⟨o, hwatch⟩ := hwatch
  have hbase : (t.watch c).base = (s.watch c).base := by rw [hwatch]; rfl
  refine ⟨?_, ?_⟩
  · intro hk
    rw [hdtHeart, hold, hdt, hbase, hwatch]
    exact h.waits (hpending.mp hk)
  · intro hk
    rw [hdtHeart, hold, hbase, hwatch]
    exact h.visited fun hk' => hk (hpending.mpr hk')

/-- A client that is in the map is not in the queue, and has been added. -/
theorem Life.not_mem_queue (h : Life s) (hc : s.thread.data.clients[k]? = some c) :
    c.sockfd = k ∧ c ∉ Lifecycle.queue s.thread.data ∧ c ∈ s.thread.added := by
  obtain ⟨kept, hs⟩ := h
  obtain ⟨hsock, hkept, -⟩ := hs.accounted.map_mem k c hc
  refine ⟨hsock, fun hqueue => ?_, hs.kept_added c hkept⟩
  have hnone := hs.accounted.apart c hqueue
  rw [hsock, hc] at hnone
  cases hnone

/-- In `onRun` the queue is all of `_clientsBuff`. -/
theorem Life.queue_eq (h : Life s) (hwalk : Lifecycle.walkOf s.thread.worker = none) :
    Lifecycle.queue s.thread.data = s.thread.data.clientsBuff := by
  obtain ⟨kept, hs⟩ := h
  exact Lifecycle.queue_of_walk_none (hs.walk.trans hwalk)

theorem Life.queue_added (h : Life s) (hc : c ∈ Lifecycle.queue s.thread.data) :
    c ∈ s.thread.added := by
  obtain ⟨kept, hs⟩ := h
  exact hs.kept_added c (hs.accounted.queue_mem c hc).1

/-- A step that may take clients out of the map and out of the queue, and changes no counter. -/
theorem Inv.of_subset (h : Inv s) (hlife : Life t)
    (hexiting : ∀ l, t.thread.worker = .exiting l → l = .broken)
    (hpending : pending t.thread.worker = pending s.thread.worker)
    (hclients : ∀ (k : Socket) (c : ClientPtr), t.thread.data.clients[k]? = some c →
      s.thread.data.clients[k]? = some c)
    (hqueue : ∀ c ∈ Lifecycle.queue t.thread.data, c ∈ Lifecycle.queue s.thread.data)
    (hdtHeart : t.dtHeart = s.dtHeart) (hold : t.oldTime = s.oldTime) (hdt : t.dt = s.dt)
    (hwatch : ∀ c, ∃ o, t.watch c = { s.watch c with heardAt := o }) : Inv t := by
  refine ⟨hlife, hexiting, ?_, ?_, ?_⟩
  · rw [hpending]
    exact h.nodup
  · intro c hc
    rw [hdtHeart]
    exact h.waiting c (hqueue c hc)
  · intro k c hc
    exact (h.client k c (hclients k c hc)).congr (by rw [hpending]) (by rw [hdtHeart]) hold hdt
      (hwatch c)

/-! ## Steps of the thread -/

section Thread

variable {a : Lifecycle.Act} {u : Lifecycle.State} {d : CellServer} {l : Loc} {n : Next Loc}
  {i : Env} {isRun : Bool}

theorem pending_eq_nil_of_not_timed (hl : ¬ Timed l) :
    pending (.onRun l : Worker Loc ClearLoc) = [] := by
  cases l with
  | checkTime keys =>
    cases keys with
    | nil => rfl
    | cons k keys => exact absurd trivial hl
  | _ => rfl

theorem pending_ofRun (hn : Leads n) : pending (.ofRun .map n : Worker Loc ClearLoc) = [] := by
  cases n with
  | goto l =>
    cases l with
    | checkTime keys => exact hn.elim
    | _ => rfl
  | _ => rfl

theorem walkOf_ofRun (n : Next Loc) :
    Lifecycle.walkOf (.ofRun .map n : Worker Loc ClearLoc) = none := by
  cases n <;> rfl

/-- A step that merges nothing leaves what is known of a client, but for when it was heard of. -/
theorem watch_after (hm : merges s.thread a = []) (c : ClientPtr) :
    ∃ o, (s.after a u).watch c = { s.watch c with heardAt := o } := by
  dsimp only [State.after]
  rw [hm, if_neg List.not_mem_nil]
  split_ifs
  · exact ⟨_, rfl⟩
  · exact ⟨(s.watch c).heardAt, rfl⟩

theorem merges_eq_nil (hw : s.thread.worker = .onRun l) (hl : l ≠ .merge) :
    merges s.thread a = [] := by
  cases a with
  | run isRun i =>
    rw [merges, hw]
    cases l <;> first | rfl | exact absurd rfl hl
  | _ => rfl

/-- The clients in the map behind a merge. -/
theorem getElem?_merge (hs : Life s) (hw : s.thread.worker = .onRun .merge)
    (hc : s.thread.data.merge.clients[k]? = some c) :
    c ∈ s.thread.data.clientsBuff ∨
      c ∉ s.thread.data.clientsBuff ∧ s.thread.data.clients[k]? = some c := by
  have hqueue := hs.queue_eq (by rw [hw]; rfl)
  by_cases hk : ∃ c' ∈ s.thread.data.clientsBuff, c'.sockfd = k
  · obtain ⟨c', hc', rfl⟩ := hk
    obtain ⟨kept, hinv⟩ := hs
    have hin := Lifecycle.getElem?_insert_of_mem s.thread.data.clients
      (hqueue ▸ hinv.accounted.queue_nodup) hc'
    obtain rfl : c = c' := Option.some.inj (hc.symm.trans hin)
    exact .inl hc'
  · have hold : s.thread.data.clients[k]? = some c := by
      rw [← hc]
      exact (Lifecycle.getElem?_insert_of_ne _ fun c' hc' heq => hk ⟨c', hc', heq⟩).symm
    refine .inr ⟨fun hmem => (hs.not_mem_queue hold).2.1 ?_, hold⟩
    rw [hqueue]
    exact hmem

theorem Inv.merge (h : Inv s) (hlife : Life t) (hw : s.thread.worker = .onRun .merge)
    (ht : t = s.after a { s.thread with
      data := s.thread.data.merge, worker := .onRun .gather })
    (hmerges : merges s.thread a = s.thread.data.clientsBuff)
    (hadd : ∀ c moves, a ≠ .add c moves) (hhears : hears s.thread a = none) : Inv t := by
  have hdtHeart : t.dtHeart = s.dtHeart := by
    rw [ht]
    cases a <;> first | rfl | exact absurd rfl (hadd _ _)
  subst ht
  have hqueue := h.life.queue_eq (by rw [hw]; rfl)
  refine ⟨hlife, fun l hl => (by cases hl), .nil, ?_, ?_⟩
  · intro c hc
    rw [hlife.queue_eq rfl] at hc
    cases hc
  · intro k c hc
    rcases getElem?_merge h.life hw hc with hnew | ⟨hnew, hold⟩
    · have hwatch : (s.after a { s.thread with
          data := s.thread.data.merge, worker := .onRun .gather }).watch c =
          ⟨s.oldTime, [], none, none⟩ := by
        dsimp only [State.after]
        rw [hmerges, if_pos hnew]
      have hzero := h.waiting c (hqueue ▸ hnew)
      refine ⟨fun hk => absurd hk List.not_mem_nil, fun _ => ?_⟩
      rw [hdtHeart, hwatch, hzero]
      exact ⟨(sub_self _).symm, fun _ x hx => absurd hx List.not_mem_nil⟩
    · refine (h.client k c hold).congr (by rw [hw]; rfl) (by rw [hdtHeart]) rfl rfl
        ⟨(s.watch c).heardAt, ?_⟩
      dsimp only [State.after]
      rw [hmerges, if_neg hnew, hhears, if_neg (by simp)]

/-- A step of `onRun`. -/
theorem Inv.run (h : Inv s) (hlife : Life (s.after (.run isRun i) u))
    (hown : ¬ OwnStep s.thread (.run isRun i))
    (hstep : Lifecycle.step s.thread (.run isRun i) = some u) :
    Inv (s.after (.run isRun i) u) := by
  obtain ⟨l, d, n, hw, hrun, rfl⟩ := Lifecycle.step_run hstep
  have hl : ¬ Timed l := by
    rw [OwnStep, hw] at hown
    exact hown
  obtain ⟨heffect, hn⟩ := onRun_effect hl hrun
  have hpending : pending (.ofRun .map n : Worker Loc ClearLoc) = pending s.thread.worker := by
    rw [hw, pending_ofRun hn, pending_eq_nil_of_not_timed hl]
  have hexiting : ∀ l, (.ofRun .map n : Worker Loc ClearLoc) = .exiting l → l = .broken :=
    fun _ => hn.exiting
  have hqueue : Lifecycle.queue s.thread.data = s.thread.data.clientsBuff :=
    h.life.queue_eq (by rw [hw]; rfl)
  have hqueue' : Lifecycle.queue d = d.clientsBuff := hlife.queue_eq (walkOf_ofRun n)
  cases heffect with
  | quiet hne hquiet hbuff =>
    refine h.of_subset hlife hexiting hpending (fun k c hc => ?_) (fun c hc => ?_) rfl rfl rfl
      (watch_after (merges_eq_nil hw hne))
    · exact hquiet.clients ▸ hc
    · have hc' : c ∈ Lifecycle.queue d := hc
      rw [hqueue', hbuff] at hc'
      rw [hqueue]
      exact hc'
  | merge hmerge =>
    subst hmerge
    have hgoto : n = .goto .gather := by
      cases i <;> cases hrun
      rfl
    subst hgoto
    refine h.merge hlife hw rfl (by rw [merges, hw]) (fun c moves heq => by cases heq) ?_
    cases i <;> first | rfl | (rw [hears, hw])
  | @leave k' c' es hne hc' =>
    refine h.of_subset hlife hexiting hpending (fun k c hc => ?_) (fun c hc => ?_) rfl rfl rfl
      (watch_after (merges_eq_nil hw hne))
    · have herase := (CellServer.getElem?_onClientLeave _ c' k' k).symm.trans hc
      split_ifs at herase
      exact herase
    · have hin : c ∈ Lifecycle.queue ((s.thread.data.record es).onClientLeave c' k') := hc
      rw [hqueue'] at hin
      rw [hqueue]
      exact hin

theorem Inv.exit (h : Inv s) (hlife : Life (s.after .exit u))
    (hstep : Lifecycle.step s.thread .exit = some u) : Inv (s.after .exit u) := by
  obtain ⟨l, hw, rfl⟩ := Lifecycle.step_exit hstep
  obtain rfl := h.exiting l hw
  exact h.of_subset hlife (fun l hl => (by cases hl)) (by rw [hw]; rfl) (fun k c hc => hc)
    (fun c hc => hc) rfl rfl rfl (watch_after rfl)

/-- A step of `ClearClients`. -/
theorem Inv.destroy (h : Inv s) (hlife : Life (s.after (.destroy i) u))
    (hstep : Lifecycle.step s.thread (.destroy i) = some u) : Inv (s.after (.destroy i) u) := by
  obtain ⟨l, d, o, hw, hclear, rfl⟩ := Lifecycle.step_destroy hstep
  have hpending : pending (.ofDestory o : Worker Loc ClearLoc) = pending s.thread.worker := by
    rw [hw]
    cases o <;> rfl
  have hexiting : ∀ l, (.ofDestory o : Worker Loc ClearLoc) = .exiting l → l = .broken :=
    fun l hl => absurd hl (ofDestory_ne o l).1
  have hsub : (∀ (k : Socket) (c : ClientPtr), d.clients[k]? = some c →
        s.thread.data.clients[k]? = some c) ∧
      ∀ c ∈ Lifecycle.queue d, c ∈ Lifecycle.queue s.thread.data := by
    obtain ⟨kept, hs⟩ := h.life
    have hwalk := hs.walk
    rw [hw] at hwalk
    cases CellServer.clearClients_cases hclear with
    | map =>
      refine ⟨?_, ?_⟩
      · intro k c hc
        rw [CellServer.getElem?_clearMap] at hc
        cases hc
      · intro c hc
        rw [Lifecycle.queue_of_walk_none hwalk]
        exact List.mem_of_mem_drop hc
    | next =>
      refine ⟨fun k c hc => hc, fun c hc => ?_⟩
      rw [Lifecycle.queue, hwalk]
      rw [Lifecycle.queue] at hc
      exact List.drop_subset_drop_left _ (Nat.le_succ _) hc
    | dangling => exact ⟨fun k c hc => hc, fun c hc => hc⟩
    | buff => exact ⟨fun k c hc => hc, fun c hc => absurd (List.mem_of_mem_drop hc) (by
        simp [CellServer.clearBuff])⟩
  exact h.of_subset hlife hexiting hpending hsub.1 hsub.2 rfl rfl rfl (watch_after rfl)

/-- Another thread adds a client. -/
theorem Inv.add (h : Inv s) {c : ClientPtr} {moves : Bool}
    (hlife : Life (s.after (.add c moves) u))
    (hstep : Lifecycle.step s.thread (.add c moves) = some u) :
    Inv (s.after (.add c moves) u) := by
  obtain ⟨⟨hnew, -⟩, rfl⟩ := Lifecycle.step_add hstep
  have hdtHeart {c' : ClientPtr} (hc' : c' ∈ s.thread.added) :
      Function.update s.dtHeart c 0 c' = s.dtHeart c' := by
    refine Function.update_of_ne ?_ _ _
    rintro rfl
    exact hnew hc'
  refine ⟨hlife, h.exiting, h.nodup, ?_, ?_⟩
  · intro c' hc'
    have hin : c' ∈ Lifecycle.queue s.thread.data ∨ c' = c := by
      have hdrop : c' ∈ (s.thread.data.clientsBuff ++ [c]).drop
          (s.thread.data.walk.elim 0 Prod.fst) := hc'
      rw [List.drop_append] at hdrop
      rcases List.mem_append.mp hdrop with hin | hin
      · exact .inl hin
      · exact .inr (List.mem_singleton.mp (List.mem_of_mem_drop hin))
    rcases hin with hin | rfl
    · exact (hdtHeart (h.life.queue_added hin)).trans (h.waiting c' hin)
    · exact Function.update_self ..
  · intro k c' hc'
    have hin : s.thread.data.clients[k]? = some c' := hc'
    exact (h.client k c' hin).congr Iff.rfl (hdtHeart (h.life.not_mem_queue hin).2.2) rfl rfl
      (watch_after rfl c')

theorem Inv.thread (h : Inv s) (hlife : Life (s.after a u)) (hown : ¬ OwnStep s.thread a)
    (hstep : Lifecycle.step s.thread a = some u) : Inv (s.after a u) := by
  cases a with
  | run isRun i => exact h.run hlife hown hstep
  | exit => exact h.exit hlife hstep
  | destroy i => exact h.destroy hlife hstep
  | add c moves => exact h.add hlife hstep

end Thread

/-! ## Steps that read the clock, and `checkHeart` -/

/-- When there is no client, the clock may be read. -/
theorem Inv.idle (h : Inv s) (hlife : Life t)
    (hempty : s.thread.data.clients.isEmpty = true) {now : ℤ}
    (ht : t = { s with thread := { s.thread with worker := .onRun .loop }, oldTime := now }) :
    Inv t := by
  subst ht
  refine ⟨hlife, fun l hl => (by cases hl), .nil, h.waiting, fun k c hc => ?_⟩
  have hnone : s.thread.data.clients[k]? = none :=
    Std.TreeMap.getElem?_of_isEmpty hempty
  rw [hnone] at hc
  cases hc

/-- `CheckTime` starts: it has still to come to all clients. -/
theorem Inv.checkTime (h : Inv s) {now : ℤ}
    (hlife : Life (s.checkTime now
      { s.thread with worker := .onRun (.checkTime s.thread.data.clients.keys) }))
    (hw : s.thread.worker = .onRun (.write [] none)) :
    Inv (s.checkTime now
      { s.thread with worker := .onRun (.checkTime s.thread.data.clients.keys) }) := by
  refine ⟨hlife, fun l hl => (by cases hl), Std.TreeMap.nodup_keys, h.waiting, fun k c hc => ?_⟩
  obtain ⟨hcounter, hbefore⟩ := (h.client k c hc).visited (by rw [hw]; exact List.not_mem_nil)
  refine ⟨fun _ => ⟨?_, fun hreset => ⟨_, rfl, hbefore hreset⟩⟩, fun hk => ?_⟩
  · dsimp only [State.checkTime]
    rw [hcounter]
    have hbase : ({ s.watch c with readings := (s.watch c).readings ++ [now] } : Watch).base =
        (s.watch c).base := rfl
    rw [hbase]
    omega
  · refine absurd ?_ hk
    have hin : s.thread.data.clients[k]? = some c := hc
    have hmem : k ∈ s.thread.data.clients := by
      rw [Std.TreeMap.mem_iff_isSome_getElem?, hin]
      rfl
    exact Std.TreeMap.mem_keys.mpr hmem

variable {sockfd : Socket} {keys : List Socket}

/-- `CheckTime` has come to a client: what is to be shown of it. -/
theorem Inv.visit (h : Inv s) (hlife : Life t)
    (hw : s.thread.worker = .onRun (.checkTime (sockfd :: keys)))
    (ht : t.thread.worker = .onRun (.checkTime keys))
    (hclients : ∀ (k : Socket) (c : ClientPtr), t.thread.data.clients[k]? = some c →
      s.thread.data.clients[k]? = some c)
    (hqueue : Lifecycle.queue t.thread.data = Lifecycle.queue s.thread.data)
    (hdtHeart : ∀ c, c.sockfd ≠ sockfd ∨ c ∈ Lifecycle.queue s.thread.data →
      t.dtHeart c = s.dtHeart c)
    (hold : t.oldTime = s.oldTime) (hdt : t.dt = s.dt) (hwatch : t.watch = s.watch)
    (hself : ∀ c, t.thread.data.clients[sockfd]? = some c →
      t.dtHeart c = s.dtHeart c + s.dt ∧ s.dtHeart c + s.dt < clientHeartDeadTime) : Inv t := by
  have hnodup := h.nodup
  rw [hw] at hnodup
  obtain ⟨hnot, hnodup⟩ := List.nodup_cons.mp hnodup
  refine ⟨hlife, fun l hl => (by rw [ht] at hl; cases hl), by rw [ht]; exact hnodup, ?_, ?_⟩
  · intro c hc
    rw [hqueue] at hc
    rw [hdtHeart c (.inr hc)]
    exact h.waiting c hc
  · intro k c hc
    have hc' := hclients k c hc
    by_cases hk : k = sockfd
    · subst hk
      obtain ⟨hcounter, hlt⟩ := hself c hc
      obtain ⟨hsum, hreadings⟩ := (h.client k c hc').waits (by rw [hw]; exact List.mem_cons_self)
      refine ⟨?_, fun _ => ?_⟩
      · intro hin
        rw [ht] at hin
        exact absurd hin hnot
      · rw [hold, hwatch, hcounter]
        refine ⟨hsum, fun hreset x hx => ?_⟩
        obtain ⟨xs, hxs, hbefore⟩ := hreadings hreset
        rw [hxs] at hx
        rcases List.mem_append.mp hx with hx | hx
        · exact hbefore x hx
        · rw [List.mem_singleton.mp hx]
          rw [hsum, Watch.base, hreset, Option.getD_none] at hlt
          omega
    · refine (h.client k c hc').congr ?_ (hdtHeart c (.inl ?_)) hold hdt
        ⟨(s.watch c).heardAt, by rw [hwatch]⟩
      · rw [ht, hw]
        simp [pending, hk]
      · rw [(h.life.not_mem_queue hc').1]
        exact hk

/-- The counter of the client `CheckTime` comes to is changed, and no other. -/
theorem Inv.update_dtHeart (h : Inv s) (hc : s.thread.data.clients[sockfd]? = some c) {x : ℤ}
    {c' : ClientPtr} (hc' : c'.sockfd ≠ sockfd ∨ c' ∈ Lifecycle.queue s.thread.data) :
    Function.update s.dtHeart c x c' = s.dtHeart c' := by
  obtain ⟨hsock, hqueue, -⟩ := h.life.not_mem_queue hc
  refine Function.update_of_ne ?_ _ _
  rintro rfl
  rcases hc' with hne | hin
  · exact hne hsock
  · exact hqueue hin

/-- **Every step keeps the invariant.** -/
theorem inv_step {a : Act} (h : Inv s) (hstep : Step insert s a t) : Inv t := by
  have hlife := life_step h.life hstep
  cases hstep with
  | thread hown hstep => exact h.thread hlife hown hstep
  | idle hw hempty => exact h.idle hlife hempty rfl
  | gather hw =>
    have hsame := CellServer.same_gatherWith insert s.thread.data
    refine h.of_subset hlife (fun l hl => (by cases hl)) (by rw [hw]; rfl) (fun k c hc => ?_)
      (fun c hc => ?_) rfl rfl rfl fun c => ⟨(s.watch c).heardAt, rfl⟩
    · exact hsame.clients ▸ hc
    · rw [Lifecycle.queue, ← hsame.clientsBuff, ← hsame.walk]
      exact hc
  | checkTime hw => exact h.checkTime hlife hw
  | skip hw hnone =>
    refine h.visit hlife hw rfl (fun k c hc => hc) rfl (fun _ _ => rfl) rfl rfl rfl fun c hc => ?_
    exact absurd (hnone.symm.trans hc) (by simp)
  | @keep sockfd keys c hw hc hlt =>
    refine h.visit hlife hw rfl (fun k c hc => hc) rfl (fun c' hc' => h.update_dtHeart hc hc')
      rfl rfl rfl fun c' hc' => ?_
    obtain rfl : c = c' := Option.some.inj (hc.symm.trans hc')
    exact ⟨Function.update_self .., hlt⟩
  | @remove sockfd keys c hw hc =>
    have herase (k : Socket) :
        ((s.thread.data.record [.heart c]).onClientLeave c sockfd).clients[k]? =
          if sockfd = k then none else s.thread.data.clients[k]? :=
      CellServer.getElem?_onClientLeave ..
    refine h.visit hlife hw rfl (fun k c' hc' => ?_) rfl
      (fun c' hc' => h.update_dtHeart hc hc') rfl rfl rfl fun c' hc' => ?_
    · have hc'' := (herase k).symm.trans hc'
      split_ifs at hc''
      exact hc''
    · have hc'' := (herase sockfd).symm.trans hc'
      rw [if_pos rfl] at hc''
      cases hc''
  | @resetDtHeart c hmsg hc =>
    have hpending : pending s.thread.worker = [] := by
      obtain ⟨_, _, _, _, hw⟩ := worker_of_inNetMsg hmsg
      rw [hw]
      rfl
    refine ⟨hlife, h.exiting, h.nodup, ?_, ?_⟩
    · intro c' hc'
      exact (h.update_dtHeart hc (.inr hc')).trans (h.waiting c' hc')
    · intro k c' hc'
      by_cases hcc : c' = c
      · subst hcc
        refine ⟨fun hk => ?_, fun _ => ?_⟩
        · rw [hpending] at hk
          cases hk
        · dsimp only
          rw [Function.update_self, Function.update_self]
          exact ⟨(sub_self _).symm, fun hreset => (by cases hreset)⟩
      · refine (h.client k c' hc').congr Iff.rfl (Function.update_of_ne hcc _ _) rfl rfl
          ⟨(s.watch c').heardAt, ?_⟩
        exact Function.update_of_ne hcc _ _
  | restart hw =>
    exact h.of_subset hlife (fun l hl => (by cases hl)) (by rw [hw]; rfl) (fun k c hc => hc)
      (fun c hc => hc) rfl rfl rfl fun c => ⟨(s.watch c).heardAt, rfl⟩

variable {now : ℤ} {maxSock : Socket}

theorem inv_init : Inv (serverLoop insert now maxSock).init := by
  refine ⟨⟨[], Lifecycle.inv_init⟩, fun l hl => (by cases hl), .nil, fun c _ => rfl,
    fun k c hc => ?_⟩
  exact absurd ((CellServer.getElem?_new k).symm.trans hc) (by simp)

theorem inv_of_reachable (h : (serverLoop insert now maxSock).Reachable s) : Inv s :=
  h.invariant inv_init fun _ _ _ hs hstep => inv_step hs (step_cases hstep)

end ServerLoop
end EasyTcpServer
