import EasyTcpServer.Server.Accounting

/-!
# The life of a client in a server

The machine below is the thread of one server, from the start of `onRun` to the end of
`ClearClients`, with other threads calling `addClient` in between.  The descriptors of
clients that are not deleted are pairwise distinct, because only the destructor closes one;
nothing else is assumed about which descriptors new clients get, so they may get those of
deleted ones.

The invariant is `Accounted`.  It breaks in one place.  The second loop of `ClearClients`, and
the `clear()` behind it, use the queue without `_mutex`.  A client that is added there is
removed from the queue without having been deleted (`client_lost_in_clear`), and its socket
stays open.

* `lifecycle_of_undisturbed`: in a run in which no client is added there, every client is in
  exactly one place, and its events are those of a whole life up to there.
-/

namespace EasyTcpServer
namespace Lifecycle

open CellServer (Loc ClearLoc Env)
open CellThread (Worker)

/-! ## The thread of a server -/

/-- The thread of a server, from the start of `onRun` to the end of `ClearClients`. -/
structure State where
  data : CellServer
  worker : Worker Loc ClearLoc
  /-- The clients `addClient` was called for. -/
  added : List ClientPtr

inductive Act where
  /-- A step of `onRun`, with the value `isRun()` has then. -/
  | run (isRun : Bool) (i : Env)
  /-- `Exit` returns. -/
  | exit
  /-- A step of `ClearClients`. -/
  | destroy (i : Env)
  /-- Another thread adds a client. -/
  | add (pClient : ClientPtr) (moves : Bool)

/-- What holds of a client that is added: it is new, and every other client with its
descriptor has been deleted, which is what closes a descriptor. -/
def Addable (s : State) (c : ClientPtr) : Prop :=
  c ∉ s.added ∧ ∀ c' ∈ s.added, c'.sockfd = c.sockfd → Deleted s.data.log c'

instance (s : State) (c : ClientPtr) : Decidable (Addable s c) := by
  unfold Addable
  infer_instance

def step (s : State) : Act → Option State
  | .run isRun i =>
    match s.worker with
    | .onRun l =>
      (s.data.onRun isRun l i).map fun r => { s with data := r.1, worker := .ofRun .map r.2 }
    | _ => none
  | .exit =>
    match s.worker with
    | .exiting l => some { s with worker := .onRun l }
    | _ => none
  | .destroy i =>
    match s.worker with
    | .onDestory l =>
      (s.data.clearClients l i).map fun r => { s with data := r.1, worker := .ofDestory r.2 }
    | _ => none
  | .add c moves =>
    if Addable s c then
      some { s with data := s.data.addClient c moves, added := s.added ++ [c] }
    else none

end Lifecycle

/-- The thread of a new server. -/
def serverThread : Machine Lifecycle.State Lifecycle.Act where
  init := ⟨.new, .onRun .loop, []⟩
  step := Lifecycle.step

namespace Lifecycle

open CellServer (Loc ClearLoc Env)
open CellThread (Worker)

/-! ## Runs of the thread -/

/-- The loop of `ClearClients` over the queue, as the place of the thread tells it. -/
def walkOf : Worker Loc ClearLoc → Option (ℕ × ℕ)
  | .onDestory (.buff k n) => some (k, n)
  | _ => none

/-- No client is added while `ClearClients` is in its loop over the queue or in front of the
`clear()` behind it. -/
def Undisturbed (s : State) : Act → Prop
  | .add _ _ => walkOf s.worker = none
  | _ => True

instance (s : State) (a : Act) : Decidable (Undisturbed s a) := by
  unfold Undisturbed
  split <;> infer_instance

/-- What holds in every state of a run.  `kept` are the clients that are accounted for. -/
structure Inv (kept : List ClientPtr) (s : State) : Prop where
  kept_added : ∀ c ∈ kept, c ∈ s.added
  accounted : Accounted kept s.data
  handled : ∀ l, s.worker = .onRun l ∨ s.worker = .exiting l → Handled s.data l
  walk : s.data.walk = walkOf s.worker
  ends : ∀ k n, s.worker = .onDestory (.buff k n) → k ≤ n ∧ n ≤ s.data.clientsBuff.length

/-- In an undisturbed run all clients are accounted for. -/
structure Whole (kept : List ClientPtr) (s : State) : Prop where
  kept_eq : kept = s.added
  defined : s.data.undefined = false
  ends : ∀ k n, s.worker = .onDestory (.buff k n) → n = s.data.clientsBuff.length

theorem accounted_new : Accounted [] .new := by
  refine ⟨nofun, .nil, fun k c hc => ?_, nofun, nofun, fun c _ => rfl⟩
  rw [CellServer.getElem?_new] at hc
  cases hc

theorem inv_init : Inv [] serverThread.init := by
  refine ⟨nofun, accounted_new, ?_, rfl, nofun⟩
  rintro l (h | h) <;> cases h
  exact trivial

variable {s t : State} {kept : List ClientPtr} {d' : CellServer}

theorem step_run {isRun : Bool} {i : Env} (h : step s (.run isRun i) = some t) :
    ∃ l d n, s.worker = .onRun l ∧ s.data.onRun isRun l i = some (d, n) ∧
      t = { s with data := d, worker := .ofRun .map n } := by
  simp only [step] at h
  split at h
  · next l hl =>
    obtain ⟨⟨d, n⟩, hrun, rfl⟩ := Option.map_eq_some_iff.mp h
    exact ⟨l, d, n, hl, hrun, rfl⟩
  · cases h

theorem step_exit (h : step s .exit = some t) :
    ∃ l, s.worker = .exiting l ∧ t = { s with worker := .onRun l } := by
  simp only [step] at h
  split at h
  · next l hl => exact ⟨l, hl, (Option.some.inj h).symm⟩
  · cases h

theorem step_destroy {i : Env} (h : step s (.destroy i) = some t) :
    ∃ l d o, s.worker = .onDestory l ∧ s.data.clearClients l i = some (d, o) ∧
      t = { s with data := d, worker := .ofDestory o } := by
  simp only [step] at h
  split at h
  · next l hl =>
    obtain ⟨⟨d, o⟩, hclear, rfl⟩ := Option.map_eq_some_iff.mp h
    exact ⟨l, d, o, hl, hclear, rfl⟩
  · cases h

theorem step_add {c : ClientPtr} {moves : Bool} (h : step s (.add c moves) = some t) :
    Addable s c ∧ t = { s with data := s.data.addClient c moves, added := s.added ++ [c] } :=
  Machine.guarded_eq_some.mp h

/-- A step of `onRun`. -/
theorem Inv.run (hs : Inv kept s) {isRun : Bool} {l : Loc} {i : Env} {n : Next Loc}
    (hl : s.worker = .onRun l) (h : s.data.onRun isRun l i = some (d', n)) :
    Inv kept { s with data := d', worker := .ofRun .map n } := by
  have hhandled := hs.handled l (.inl hl)
  have hwalk := hs.walk
  rw [hl] at hwalk
  obtain ⟨haccounted, hwalk'⟩ := (change_of_onRun hhandled h).accounted hs.accounted hwalk
  have hnext := handled_of_onRun hs.accounted hhandled h
  cases n with
  | goto l' =>
    refine ⟨hs.kept_added, haccounted, ?_, hwalk', nofun⟩
    rintro _ (heq | heq) <;> cases heq
    exact hnext
  | exit l' =>
    refine ⟨hs.kept_added, haccounted, ?_, hwalk', nofun⟩
    rintro _ (heq | heq) <;> cases heq
    exact hnext
  | ret => exact ⟨hs.kept_added, haccounted, nofun, hwalk', nofun⟩

/-- A step of `ClearClients`.  What is lost is what the last `clear()` finds in the queue. -/
theorem Inv.destroy (hs : Inv kept s) {l : ClearLoc} {i : Env} {o : Option ClearLoc}
    (hl : s.worker = .onDestory l) (h : s.data.clearClients l i = some (d', o)) :
    ∃ kept', Inv kept' { s with data := d', worker := .ofDestory o } ∧
      (Whole kept s → Whole kept' { s with data := d', worker := .ofDestory o }) := by
  have hwalk := hs.walk
  rw [hl] at hwalk
  have hat {k n k' n' : ℕ} (hw : (Worker.ofDestory (some (ClearLoc.buff k n)) :
      Worker Loc ClearLoc) = .onDestory (.buff k' n')) : k = k' ∧ n = n' := by
    simpa [Worker.ofDestory] using hw
  cases CellServer.clearClients_cases h with
  | map =>
    refine ⟨kept, ⟨hs.kept_added, hs.accounted.clearMap hwalk, nofun, rfl, ?_⟩,
      fun hwhole => ⟨hwhole.kept_eq, hwhole.defined, ?_⟩⟩
    · intro k n hw
      obtain ⟨rfl, rfl⟩ := hat hw
      exact ⟨Nat.zero_le _, le_rfl⟩
    · intro k n hw
      exact (hat hw).2.symm
  | @next k n c hlt hc =>
    have hn := (hs.ends k n hl).2
    refine ⟨kept, ⟨hs.kept_added, hs.accounted.clearNext hwalk hc, nofun, rfl, ?_⟩,
      fun hwhole => ⟨hwhole.kept_eq, hwhole.defined, ?_⟩⟩
    · intro k' n' hw
      obtain ⟨rfl, rfl⟩ := hat hw
      exact ⟨hlt, hn⟩
    · intro k' n' hw
      obtain ⟨rfl, rfl⟩ := hat hw
      exact hwhole.ends k n hl
  | @dangling k n hlt hc =>
    -- the end of the walk lies within the queue
    have hge := List.getElem?_eq_none_iff.mp hc
    have hn := (hs.ends k n hl).2
    omega
  | @buff k n hle =>
    refine ⟨_, ⟨fun c hc => hs.kept_added c (List.mem_of_mem_filter hc),
      hs.accounted.clearBuff, nofun, rfl, nofun⟩, fun hwhole => ⟨?_, hwhole.defined, nofun⟩⟩
    have hqueue : queue s.data = [] := by
      rw [queue, hwalk]
      exact List.drop_of_length_le (by rw [← hwhole.ends k n hl]; exact hle)
    simpa [hqueue] using hwhole.kept_eq

theorem Inv.add (hs : Inv kept s) {c : ClientPtr} (hc : Addable s c) (moves : Bool) :
    Inv (kept ++ [c])
      { s with data := s.data.addClient c moves, added := s.added ++ [c] } := by
  obtain ⟨hnew, hsock⟩ := hc
  have hle : s.data.walk.elim 0 Prod.fst ≤ s.data.clientsBuff.length := by
    rw [hs.walk]
    rcases hcase : walkOf s.worker with _ | ⟨k, n⟩
    · exact Nat.zero_le _
    · have hl : s.worker = .onDestory (.buff k n) := by
        unfold walkOf at hcase
        split at hcase <;> cases hcase
        assumption
      exact (hs.ends k n hl).1.trans (hs.ends k n hl).2
  refine ⟨fun c' hc' => ?_, hs.accounted.addClient hle (fun hmem => hnew (hs.kept_added c hmem))
    (fun c' hc' => hsock c' (hs.kept_added c' hc')) moves, hs.handled, hs.walk, fun k n hl => ?_⟩
  · rcases List.mem_append.mp hc' with hc' | hc'
    · exact List.mem_append_left _ (hs.kept_added c' hc')
    · exact List.mem_append_right _ hc'
  · obtain ⟨hk, hn⟩ := hs.ends k n hl
    refine ⟨hk, hn.trans ?_⟩
    show _ ≤ (s.data.clientsBuff ++ [c]).length
    rw [List.length_append]
    exact Nat.le_add_right _ _

/-- **What a step keeps.** -/
theorem inv_step {a : Act} (hs : Inv kept s) (h : step s a = some t) :
    ∃ kept', Inv kept' t ∧ (Undisturbed s a → Whole kept s → Whole kept' t) := by
  cases a with
  | run isRun i =>
    obtain ⟨l, d, n, hl, hrun, rfl⟩ := step_run h
    refine ⟨kept, hs.run hl hrun, fun _ hwhole => ⟨hwhole.kept_eq, ?_, ?_⟩⟩
    · exact (change_of_onRun (hs.handled l (.inl hl)) hrun).undefined.trans hwhole.defined
    · cases n <;> exact nofun
  | exit =>
    obtain ⟨l, hl, rfl⟩ := step_exit h
    have hwalk := hs.walk
    rw [hl] at hwalk
    refine ⟨kept, ⟨hs.kept_added, hs.accounted, ?_, hwalk, nofun⟩,
      fun _ hwhole => ⟨hwhole.kept_eq, hwhole.defined, nofun⟩⟩
    rintro _ (heq | heq) <;> cases heq
    exact hs.handled l (.inr hl)
  | destroy i =>
    obtain ⟨l, d, o, hl, hclear, rfl⟩ := step_destroy h
    obtain ⟨kept', hinv, hwhole⟩ := hs.destroy hl hclear
    exact ⟨kept', hinv, fun _ => hwhole⟩
  | add c moves =>
    obtain ⟨hadd, rfl⟩ := step_add h
    refine ⟨_, hs.add hadd moves, fun hok hwhole => ⟨by rw [hwhole.kept_eq], ?_, ?_⟩⟩
    · show (s.data.undefined || (moves && s.data.walk.any fun w => w.1 < w.2)) = false
      rw [hwhole.defined, hs.walk.trans hok]
      simp
    · intro k n hl
      have hsome : walkOf s.worker = some (k, n) := congrArg walkOf hl
      exact absurd (hok.symm.trans hsome) (by simp)

/-- The invariant of every run. -/
theorem exists_inv (h : serverThread.Reachable s) : ∃ kept, Inv kept s := by
  have hinit : ∃ kept, Inv kept serverThread.init := ⟨[], inv_init⟩
  refine h.invariant (I := fun s => ∃ kept, Inv kept s) hinit ?_
  rintro s a t ⟨kept, hs⟩ hstep
  exact (inv_step hs hstep).imp fun _ hinv => hinv.1

/-- In a run in which `ClearClients` is undisturbed, all clients are accounted for. -/
theorem inv_of_reachWithin (h : serverThread.ReachWithin Undisturbed s) :
    Inv s.added s ∧ s.data.undefined = false := by
  have hinit : ∃ kept, Inv kept serverThread.init ∧ Whole kept serverThread.init :=
    ⟨[], inv_init, rfl, rfl, nofun⟩
  have hinv : ∃ kept, Inv kept s ∧ Whole kept s := by
    refine h.invariant (I := fun s => ∃ kept, Inv kept s ∧ Whole kept s) hinit ?_
    rintro s a t ⟨kept, hs, hwhole⟩ hok hstep
    obtain ⟨kept', hinv, hkeep⟩ := inv_step hs hstep
    exact ⟨kept', hinv, hkeep hok hwhole⟩
  obtain ⟨kept, hs, hwhole⟩ := hinv
  exact ⟨hwhole.kept_eq ▸ hs, hwhole.defined⟩

/-! ## The law -/

/-- `c` is in exactly one place: in the queue, in the map under its own socket, or deleted. -/
def At (d : CellServer) (c : ClientPtr) : Standing → Prop
  | .waiting => c ∈ queue d ∧ d.clients[c.sockfd]? ≠ some c ∧ ¬ Deleted d.log c
  | .joined => c ∉ queue d ∧ d.clients[c.sockfd]? = some c ∧ ¬ Deleted d.log c
  | .leaving => False
  | .gone => c ∉ queue d ∧ d.clients[c.sockfd]? ≠ some c ∧ Deleted d.log c

/-- The life of the clients of a server.  What `Story` says of a place is that a client joins
once, when it gets into the map, that everything else done to it comes after that, that a
client that is not cleared leaves once, and that nothing is done to it once it is deleted. -/
structure Law (s : State) : Prop where
  defined : s.data.undefined = false
  place : ∀ c ∈ s.added, ∃ p, At s.data c p ∧ Story c p (clientProtocol.history c s.data.log)
  others : ∀ c, c ∉ s.added → clientProtocol.history c s.data.log = []
  queue_nodup : (queue s.data).Nodup
  queue_added : ∀ c ∈ queue s.data, c ∈ s.added
  keys : ∀ (k : Socket) (c : ClientPtr), s.data.clients[k]? = some c → c.sockfd = k ∧ c ∈ s.added
  handled : ∀ c fdRead fdWrite fdExc, s.worker = .onRun (.handle c fdRead fdWrite fdExc) →
    s.data.clients[c.sockfd]? = some c
  merge_keeps : s.worker = .onRun .merge →
    (∀ (k : Socket) (c : ClientPtr), s.data.clients[k]? = some c →
      s.data.merge.clients[k]? = some c) ∧
    ∀ c ∈ s.data.clientsBuff, s.data.merge.clients[c.sockfd]? = some c
  join_once : ∀ c, s.data.log.count (.join c) ≤ 1
  leave_delete : ∀ c, s.data.log.count (.leave c) = s.data.log.count (.delete c)
  delete_once : ∀ c, s.data.log.count (.delete c) + s.data.log.count (.clear c) ≤ 1

variable {added : List ClientPtr} {d : CellServer} {c : ClientPtr}

theorem count_history {log : List Event} {e : Event} (h : client e = c) :
    log.count e = (clientProtocol.history c log).count e := by
  rw [Protocol.history, List.count_filter]
  exact decide_eq_true h

theorem count_uses {uses : List Event} {e : Event} (huses : ∀ e ∈ uses, IsUse e)
    (he : ¬ IsUse e) : uses.count e = 0 :=
  List.count_eq_zero_of_not_mem fun hmem => he (huses e hmem)

/-- What the events of a client say about how often it joins, leaves and is deleted. -/
theorem Story.counts {p : Standing} {es : List Event} (h : Story c p es) (hp : p ≠ .leaving) :
    es.count (.join c) ≤ 1 ∧ es.count (.leave c) = es.count (.delete c) ∧
      es.count (.delete c) + es.count (.clear c) ≤ 1 := by
  have hzero {uses : List Event} (huses : ∀ e ∈ uses, IsUse e) :
      uses.count (.join c) = 0 ∧ uses.count (.leave c) = 0 ∧ uses.count (.delete c) = 0 ∧
        uses.count (.clear c) = 0 :=
    ⟨count_uses huses id, count_uses huses id, count_uses huses id, count_uses huses id⟩
  cases p with
  | waiting =>
    obtain rfl : es = [] := h
    simp
  | joined =>
    obtain ⟨uses, huses, rfl⟩ := h
    simp [hzero huses]
  | leaving => exact absurd rfl hp
  | gone =>
    rcases h with rfl | ⟨uses, huses, rfl | rfl⟩
    · simp
    · simp [List.count_append, hzero huses]
    · simp [List.count_append, hzero huses]

/-- In the invariant, every client is in a place and has its story. -/
theorem Accounted.place (h : Accounted added d) (hc : c ∈ added) :
    ∃ p, p ≠ .leaving ∧ At d c p ∧ clientProtocol.phase c d.log = some p := by
  have hdeleted {p : Standing} (hp : p ≠ .leaving)
      (hphase : clientProtocol.phase c d.log = some p) := deleted_iff hp hphase
  rcases h.gone c hc with hqueue | hin | hgone
  · have hwaiting := (h.queue_mem c hqueue).2
    refine ⟨.waiting, by decide, ⟨hqueue, by simp [h.apart c hqueue], ?_⟩, hwaiting⟩
    rw [hdeleted (by decide) hwaiting]
    decide
  · have hjoined := (h.map_mem c.sockfd c hin).2.2
    refine ⟨.joined, by decide, ⟨fun hqueue => ?_, hin, ?_⟩, hjoined⟩
    · rw [h.apart c hqueue] at hin
      cases hin
    · rw [hdeleted (by decide) hjoined]
      decide
  · refine ⟨.gone, by decide, ⟨fun hqueue => ?_, fun hin => ?_, ?_⟩, hgone⟩
    · rw [(h.queue_mem c hqueue).2] at hgone
      cases hgone
    · rw [(h.map_mem c.sockfd c hin).2.2] at hgone
      cases hgone
    · exact (hdeleted (by decide) hgone).mpr rfl

theorem Accounted.counts (h : Accounted added d) (c : ClientPtr) :
    d.log.count (.join c) ≤ 1 ∧ d.log.count (.leave c) = d.log.count (.delete c) ∧
      d.log.count (.delete c) + d.log.count (.clear c) ≤ 1 := by
  obtain ⟨p, hp, hphase⟩ : ∃ p, p ≠ .leaving ∧ clientProtocol.phase c d.log = some p := by
    by_cases hc : c ∈ added
    · obtain ⟨p, hp, -, hphase⟩ := h.place hc
      exact ⟨p, hp, hphase⟩
    · exact ⟨.waiting, by decide, h.fresh c hc⟩
  have hcounts := (story_of_phase hphase).counts hp
  have hcount {e : Event} (he : client e = c) :
      (clientProtocol.history c d.log).count e = d.log.count e := (count_history he).symm
  rwa [hcount (e := .join c) rfl, hcount (e := .leave c) rfl, hcount (e := .delete c) rfl,
    hcount (e := .clear c) rfl] at hcounts

theorem Inv.law (h : Inv s.added s) (hdefined : s.data.undefined = false) : Law s := by
  have hacc := h.accounted
  refine ⟨hdefined, fun c hc => ?_, fun c hc => story_of_phase (hacc.fresh c hc),
    nodup_of_nodup_sockfd hacc.queue_nodup, fun c hc => (hacc.queue_mem c hc).1,
    fun k c hc => ⟨(hacc.map_mem k c hc).1, (hacc.map_mem k c hc).2.1⟩,
    fun c _ _ _ hw => h.handled _ (.inl hw), fun hw => ?_, fun c => (hacc.counts c).1,
    fun c => (hacc.counts c).2.1, fun c => (hacc.counts c).2.2⟩
  · obtain ⟨p, -, hat, hphase⟩ := hacc.place hc
    exact ⟨p, hat, story_of_phase hphase⟩
  · have hwalk := h.walk
    rw [hw] at hwalk
    have hqueue := queue_of_walk_none hwalk
    constructor
    · intro k c hc
      refine (getElem?_insert_of_ne s.data.clients fun c' hc' heq => ?_).trans hc
      rw [← heq, hacc.apart c' (hqueue ▸ hc')] at hc
      cases hc
    · exact fun c hc => getElem?_insert_of_mem s.data.clients (hqueue ▸ hacc.queue_nodup) hc

/-- **The life of a client**: in a run in which no client is added while `ClearClients` is in
its loop over the queue or in front of the `clear()` behind it, every client is in exactly one
place, and its events are those of a whole life up to there. -/
theorem lifecycle_of_undisturbed :
    ∀ s, serverThread.ReachWithin Undisturbed s → Law s :=
  fun _ h => (inv_of_reachWithin h).1.law (inv_of_reachWithin h).2

theorem lifecycle_of_undisturbed_reused_socket :
    ∃ s, serverThread.ReachWithin Undisturbed s ∧ Law s ∧ s.data.log =
      [.join ⟨0, 1, 7⟩, .recv ⟨0, 1, 7⟩, .leave ⟨0, 1, 7⟩, .delete ⟨0, 1, 7⟩, .join ⟨0, 2, 7⟩,
        .clear ⟨0, 2, 7⟩] := by
  -- the first client is lost on read and its descriptor given out again; the stale
  -- descriptor in the set for `writeData` then finds nothing
  obtain ⟨s, hs, htest⟩ := Machine.exists_reachWithin_of_run (M := serverThread) Undisturbed
    [.add ⟨0, 1, 7⟩ false, .run true .tau, .run true .tau, .run true .tau, .run true .tau,
      .run true (.select (some ([7], [7], []))), .run true (.recv (-1)), .add ⟨0, 2, 7⟩ false,
      .run true .tau, .run true .tau, .run true .tau, .run true .tau, .run true .tau,
      .run true .tau, .run true .tau, .run true .tau, .run true .tau,
      .run true (.select none), .exit, .run false .tau, .destroy .tau, .destroy .tau]
    (fun s => decide (s.data.log =
      [.join ⟨0, 1, 7⟩, .recv ⟨0, 1, 7⟩, .leave ⟨0, 1, 7⟩, .delete ⟨0, 1, 7⟩, .join ⟨0, 2, 7⟩,
        .clear ⟨0, 2, 7⟩])) (by decide)
  exact ⟨s, hs, lifecycle_of_undisturbed s hs, of_decide_eq_true htest⟩

/-- **A client that is lost.**  `select` has failed, and `ClearClients` is at the `clear()`
behind its loop over the queue when a client is added.  The `clear()` removes the client from
the queue, and nobody deletes it. -/
theorem client_lost_in_clear : ∃ s, serverThread.Reachable s ∧ ¬ Law s := by
  obtain ⟨s, hs, htest⟩ := Machine.exists_reachable_of_run (M := serverThread)
    [.add ⟨0, 1, 7⟩ false, .run true .tau, .run true .tau, .run true .tau, .run true .tau,
      .run true (.select none), .exit, .run false .tau, .destroy .tau, .add ⟨1, 2, 8⟩ false,
      .destroy .tau]
    (fun s => decide (⟨1, 2, 8⟩ ∈ s.added ∧ s.data.clientsBuff = [] ∧
      s.data.clients[(8 : Socket)]? = none ∧ ¬ Deleted s.data.log ⟨1, 2, 8⟩)) (by decide)
  obtain ⟨hadded, hbuff, hclients, hdeleted⟩ := of_decide_eq_true htest
  refine ⟨s, hs, fun hlaw => ?_⟩
  obtain ⟨p, hat, -⟩ := hlaw.place ⟨1, 2, 8⟩ hadded
  cases p with
  | waiting =>
    have hmem : (⟨1, 2, 8⟩ : ClientPtr) ∈ queue s.data := hat.1
    rw [queue, hbuff, List.drop_nil] at hmem
    cases hmem
  | joined =>
    have hin : s.data.clients[(8 : Socket)]? = some ⟨1, 2, 8⟩ := hat.2.1
    rw [hclients] at hin
    cases hin
  | leaving => exact hat
  | gone => exact hdeleted hat.2.2

end Lifecycle
end EasyTcpServer
