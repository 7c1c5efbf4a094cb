import EasyTcpServer.Lib.Protocol
import EasyTcpServer.Server.CellServer

/-!
# Where the clients of a server are

A client is pushed to the buffer queue by `addClient`, moved to `_clients` by the merge, and
deleted when reading, writing or its heartbeat says so, or by `ClearClients` at the end.

What may happen to a client, and in which order, is a protocol (`clientProtocol`).  The
invariant `Accounted` is that the place where a client is, in the queue, in the map or in
neither, is where the protocol stands after the events recorded for it.  Each operation of
the server is shown to keep it, and `change_of_onRun` says which of these operations a step
of `onRun` is.
-/

namespace EasyTcpServer
namespace Lifecycle

open CellServer (Loc ClearLoc Env)

/-! ## The protocol of a client -/

/-- Where a client stands. -/
inductive Standing where
  /-- In the queue. -/
  | waiting
  /-- In the map. -/
  | joined
  /-- `OnNetLeave` has been called for it. -/
  | leaving
  /-- Deleted. -/
  | gone
  deriving DecidableEq, Repr

/-- The client an event is about. -/
def client : Event → ClientPtr
  | .join c | .recv c | .recvCount c | .msg c | .send c | .heart c | .leave c | .delete c
  | .clear c => c

/-- The events of a client that is served. -/
def IsUse : Event → Prop
  | .recv _ | .recvCount _ | .msg _ | .send _ | .heart _ => True
  | _ => False

/-- The protocol of a client: it joins, is served, and is deleted, either behind
`OnNetLeave` or by `ClearClients`; `ClearClients` may also delete it before it has joined. -/
def clientProtocol : Protocol ClientPtr Event Standing where
  about := client
  start := .waiting
  next
    | .waiting, .join _ => some .joined
    | .waiting, .clear _ => some .gone
    | .joined, .recv _ | .joined, .recvCount _ | .joined, .msg _ | .joined, .send _
    | .joined, .heart _ => some .joined
    | .joined, .leave _ => some .leaving
    | .joined, .clear _ => some .gone
    | .leaving, .delete _ => some .gone
    | _, _ => none

@[simp] theorem clientProtocol_about (e : Event) : clientProtocol.about e = client e := rfl

/-- The events of a client that stands at `p`. -/
def Story (c : ClientPtr) : Standing → List Event → Prop
  | .waiting, es => es = []
  | .joined, es => ∃ uses, (∀ e ∈ uses, IsUse e) ∧ es = .join c :: uses
  | .leaving, es => ∃ uses, (∀ e ∈ uses, IsUse e) ∧ es = .join c :: uses ++ [.leave c]
  | .gone, es => es = [.clear c] ∨ ∃ uses, (∀ e ∈ uses, IsUse e) ∧
      (es = .join c :: uses ++ [.leave c, .delete c] ∨ es = .join c :: uses ++ [.clear c])

theorem story_next {c : ClientPtr} {p q : Standing} {es : List Event} {e : Event}
    (hclient : client e = c) (hes : Story c p es) (h : clientProtocol.next p e = some q) :
    Story c q (es ++ [e]) := by
  subst hclient
  cases p with
  | waiting =>
    obtain rfl : es = [] := hes
    cases e <;> cases h
    · exact ⟨[], nofun, rfl⟩
    · exact .inl rfl
  | joined =>
    obtain ⟨uses, huses, rfl⟩ := hes
    have huse (he : IsUse e) :
        Story (client e) .joined (.join (client e) :: uses ++ [e]) := by
      refine ⟨uses ++ [e], fun e' he' => ?_, rfl⟩
      rcases List.mem_append.mp he' with he' | he'
      · exact huses e' he'
      · rw [List.mem_singleton.mp he']
        exact he
    cases e <;> cases h
    · exact huse trivial
    · exact huse trivial
    · exact huse trivial
    · exact huse trivial
    · exact huse trivial
    · exact ⟨uses, huses, rfl⟩
    · exact .inr ⟨uses, huses, .inr rfl⟩
  | leaving =>
    obtain ⟨uses, huses, rfl⟩ := hes
    cases e <;> cases h
    exact .inr ⟨uses, huses, .inl (by simp [client])⟩
  | gone => cases e <;> cases h

/-- **The events of a client tell where it stands.** -/
theorem story_of_phase {c : ClientPtr} {log : List Event} {p : Standing}
    (h : clientProtocol.phase c log = some p) : Story c p (clientProtocol.history c log) :=
  Protocol.phase_induction rfl (fun _ _ _ _ hc hes hnext => story_next hc hes hnext) h

/-- `c` has been deleted. -/
def Deleted (log : List Event) (c : ClientPtr) : Prop := .delete c ∈ log ∨ .clear c ∈ log

instance (log : List Event) (c : ClientPtr) : Decidable (Deleted log c) := by
  unfold Deleted
  infer_instance

theorem mem_history {c : ClientPtr} {log : List Event} {e : Event} (h : client e = c) :
    e ∈ clientProtocol.history c log ↔ e ∈ log := by
  rw [Protocol.history, List.mem_filter]
  exact and_iff_left (decide_eq_true h)

theorem not_isUse_of_story {c : ClientPtr} {p : Standing} {es : List Event} (h : Story c p es)
    (hp : p = .waiting ∨ p = .joined) : ∀ e ∈ es, e = .join c ∨ IsUse e := by
  rcases hp with rfl | rfl
  · obtain rfl : es = [] := h
    exact nofun
  · obtain ⟨uses, huses, rfl⟩ := h
    intro e he
    exact (List.mem_cons.mp he).imp_right (huses e)

/-- A client is deleted exactly when its protocol has come to its end. -/
theorem deleted_iff {c : ClientPtr} {log : List Event} {p : Standing} (hp : p ≠ .leaving)
    (h : clientProtocol.phase c log = some p) : Deleted log c ↔ p = .gone := by
  have hstory := story_of_phase h
  have hdelete : .delete c ∈ clientProtocol.history c log ↔ .delete c ∈ log := mem_history rfl
  have hclear : .clear c ∈ clientProtocol.history c log ↔ .clear c ∈ log := mem_history rfl
  rw [Deleted, ← hdelete, ← hclear]
  constructor
  · intro hdeleted
    by_contra hgone
    have hearly : p = .waiting ∨ p = .joined := by cases p <;> simp_all
    rcases hdeleted with he | he
    · exact (not_isUse_of_story hstory hearly _ he).elim (fun heq => by cases heq) False.elim
    · exact (not_isUse_of_story hstory hearly _ he).elim (fun heq => by cases heq) False.elim
  · rintro rfl
    rcases hstory with hes | ⟨uses, -, hes | hes⟩ <;> rw [hes] <;> simp

/-- The clients in the queue.  While `ClearClients` is in its loop over the queue, those it has
deleted are not counted. -/
def queue (d : CellServer) : List ClientPtr := d.clientsBuff.drop (d.walk.elim 0 Prod.fst)

/-- Every client is in one place, and that is where its protocol stands. -/
structure Accounted (added : List ClientPtr) (d : CellServer) : Prop where
  queue_mem : ∀ c ∈ queue d, c ∈ added ∧ clientProtocol.phase c d.log = some .waiting
  queue_nodup : ((queue d).map ClientPtr.sockfd).Nodup
  map_mem : ∀ k c, d.clients[k]? = some c →
    c.sockfd = k ∧ c ∈ added ∧ clientProtocol.phase c d.log = some .joined
  apart : ∀ c ∈ queue d, d.clients[c.sockfd]? = none
  gone : ∀ c ∈ added, c ∈ queue d ∨ d.clients[c.sockfd]? = some c ∨
    clientProtocol.phase c d.log = some .gone
  fresh : ∀ c, c ∉ added → clientProtocol.phase c d.log = some .waiting

variable {added : List ClientPtr} {d d' : CellServer} {c : ClientPtr} {k : Socket}

/-! ### Serving -/

/-- Serving a client that has joined leaves all protocols where they stand. -/
theorem phase_append_uses {log es : List Event} (hc : clientProtocol.phase c log = some .joined)
    (hes : ∀ e ∈ es, client e = c ∧ IsUse e) (c' : ClientPtr) :
    clientProtocol.phase c' (log ++ es) = clientProtocol.phase c' log := by
  by_cases hcc : c' = c
  · subst hcc
    rw [hc]
    refine Protocol.phase_append_of_stay hc fun e he _ => ?_
    have huse := (hes e he).2
    cases e <;> first | rfl | exact huse.elim
  · refine Protocol.phase_append_of_ne fun e he heq => hcc ?_
    exact heq.symm.trans (hes e he).1

theorem Accounted.congr (h : Accounted added d) (hclients : d'.clients = d.clients)
    (hqueue : queue d' = queue d)
    (hphase : ∀ c, clientProtocol.phase c d'.log = clientProtocol.phase c d.log) :
    Accounted added d' := by
  constructor
  · intro c hc
    rw [hphase]
    exact h.queue_mem c (hqueue ▸ hc)
  · rw [hqueue]
    exact h.queue_nodup
  · intro k c hc
    rw [hphase]
    exact h.map_mem k c (hclients ▸ hc)
  · intro c hc
    rw [hclients]
    exact h.apart c (hqueue ▸ hc)
  · intro c hc
    rw [hqueue, hclients, hphase]
    exact h.gone c hc
  · intro c hc
    rw [hphase]
    exact h.fresh c hc

/-- A client is served. -/
theorem Accounted.use (h : Accounted added d) (hc : d.clients[k]? = some c) {es : List Event}
    (hes : ∀ e ∈ es, client e = c ∧ IsUse e) : Accounted added (d.record es) :=
  h.congr rfl rfl (phase_append_uses (h.map_mem k c hc).2.2 hes)

/-! ### Leaving -/

/-- A client that has joined leaves. -/
theorem phase_append_leave {log : List Event} (hc : clientProtocol.phase c log = some .joined)
    (c' : ClientPtr) :
    clientProtocol.phase c' (log ++ [.leave c, .delete c]) =
      if c' = c then some .gone else clientProtocol.phase c' log := by
  split_ifs with hcc
  · subst hcc
    have hleave : clientProtocol.about (.leave c') = c' := rfl
    have hdelete : clientProtocol.about (.delete c') = c' := rfl
    rw [List.append_cons log, Protocol.phase_append_singleton hdelete,
      Protocol.phase_append_singleton hleave, hc]
    rfl
  · refine Protocol.phase_append_of_ne fun e he heq => hcc ?_
    rcases List.mem_cons.mp he with rfl | he
    · exact heq.symm
    · rw [List.mem_singleton.mp he] at heq
      exact heq.symm

theorem Accounted.leave (h : Accounted added d) (hc : d.clients[k]? = some c) :
    Accounted added (d.onClientLeave c k) := by
  obtain ⟨hkey, hadded, hjoined⟩ := h.map_mem k c hc
  have hphase := phase_append_leave hjoined
  have hmap (k' : Socket) : (d.onClientLeave c k).clients[k']? =
      if k = k' then none else d.clients[k']? := CellServer.getElem?_onClientLeave d c k k'
  have hne {c' : ClientPtr} (hc' : clientProtocol.phase c' d.log ≠ some .joined) : c' ≠ c := by
    rintro rfl
    exact hc' hjoined
  constructor
  · intro c' hc'
    obtain ⟨hc'_added, hwaiting⟩ := h.queue_mem c' hc'
    refine ⟨hc'_added, (hphase c').trans ?_⟩
    rw [if_neg (hne (by simp [hwaiting])), hwaiting]
  · exact h.queue_nodup
  · intro k' c' hc'
    rw [hmap] at hc'
    split_ifs at hc' with hk
    obtain ⟨hkey', hadded', hjoined'⟩ := h.map_mem k' c' hc'
    refine ⟨hkey', hadded', (hphase c').trans ?_⟩
    rw [if_neg fun heq => hk (by rw [← hkey', ← hkey, heq]), hjoined']
  · intro c' hc'
    rw [hmap]
    split_ifs
    · rfl
    · exact h.apart c' hc'
  · intro c' hc'
    rw [hmap]
    by_cases hcc : c' = c
    · exact .inr (.inr ((hphase c').trans (if_pos hcc)))
    · rcases h.gone c' hc' with hqueue | hin | hgone
      · exact .inl hqueue
      · refine .inr (.inl ?_)
        rw [if_neg, hin]
        intro hk
        rw [← hk, hc] at hin
        exact hcc (Option.some.inj hin).symm
      · exact .inr (.inr (((hphase c').trans (if_neg hcc)).trans hgone))
  · intro c' hc'
    have hwaiting := h.fresh c' hc'
    refine (hphase c').trans ?_
    rw [if_neg (hne (by simp [hwaiting])), hwaiting]

/-! ### The merge -/

/-- A descriptor that no new client has keeps its entry. -/
theorem getElem?_insert_of_ne (m : Std.TreeMap Socket ClientPtr) {cs : List ClientPtr}
    (h : ∀ c ∈ cs, c.sockfd ≠ k) :
    (cs.foldl (fun m c => m.insert c.sockfd c) m)[k]? = m[k]? := by
  induction cs generalizing m with
  | nil => rfl
  | cons c cs ih =>
    rw [List.foldl_cons, ih _ fun c' hc' => h c' (List.mem_cons_of_mem _ hc'),
      Std.TreeMap.getElem?_insert, if_neg]
    rw [Nat.compare_eq_eq]
    exact h c List.mem_cons_self

/-- A new client is found under its descriptor. -/
theorem getElem?_insert_of_mem (m : Std.TreeMap Socket ClientPtr) {cs : List ClientPtr}
    (hnodup : (cs.map ClientPtr.sockfd).Nodup) (hc : c ∈ cs) :
    (cs.foldl (fun m c => m.insert c.sockfd c) m)[c.sockfd]? = some c := by
  induction cs generalizing m with
  | nil => cases hc
  | cons c' cs ih =>
    rw [List.map_cons, List.nodup_cons] at hnodup
    rw [List.foldl_cons]
    rcases List.mem_cons.mp hc with rfl | hc
    · rw [getElem?_insert_of_ne, Std.TreeMap.getElem?_insert_self]
      intro c' hc' heq
      exact hnodup.1 (heq ▸ List.mem_map_of_mem hc')
    · exact ih _ hnodup.2 hc

theorem nodup_of_nodup_sockfd {cs : List ClientPtr} (h : (cs.map ClientPtr.sockfd).Nodup) :
    cs.Nodup :=
  h.of_map _

theorem queue_of_walk_none (h : d.walk = none) : queue d = d.clientsBuff := by
  rw [queue, h]
  rfl

/-- **The merge overwrites nothing**, and every client of the queue joins. -/
theorem Accounted.merge (h : Accounted added d) (hwalk : d.walk = none) :
    Accounted added d.merge := by
  have hqueue := queue_of_walk_none hwalk
  have hqueue' : queue d.merge = [] := List.drop_nil
  have hapart := h.apart
  have hnodup := h.queue_nodup
  rw [hqueue] at hapart hnodup
  have hphase (c : ClientPtr) : clientProtocol.phase c d.merge.log =
      if c ∈ d.clientsBuff then some .joined else clientProtocol.phase c d.log := by
    refine (Protocol.phase_append_map (fun _ => rfl) (nodup_of_nodup_sockfd hnodup) c).trans ?_
    split_ifs with hc
    · rw [(h.queue_mem c (hqueue ▸ hc)).2]
      rfl
    · rfl
  have hnew {c : ClientPtr} (hc : c ∈ d.clientsBuff) : d.merge.clients[c.sockfd]? = some c :=
    getElem?_insert_of_mem d.clients hnodup hc
  have hold {k : Socket} (hk : ∀ c ∈ d.clientsBuff, c.sockfd ≠ k) :
      d.merge.clients[k]? = d.clients[k]? :=
    getElem?_insert_of_ne d.clients hk
  constructor
  · rw [hqueue']
    exact fun c hc => absurd hc List.not_mem_nil
  · rw [hqueue']
    exact .nil
  · intro k c hc
    by_cases hk : ∃ c' ∈ d.clientsBuff, c'.sockfd = k
    · obtain ⟨c', hc', rfl⟩ := hk
      obtain rfl : c' = c := Option.some.inj ((hnew hc').symm.trans hc)
      exact ⟨rfl, (h.queue_mem c' (hqueue ▸ hc')).1, (hphase c').trans (if_pos hc')⟩
    · have hk' : ∀ c' ∈ d.clientsBuff, c'.sockfd ≠ k := fun c' hc' heq => hk ⟨c', hc', heq⟩
      rw [hold hk'] at hc
      obtain ⟨hkey, hadded, hjoined⟩ := h.map_mem k c hc
      refine ⟨hkey, hadded, (hphase c).trans ?_⟩
      rw [if_neg fun hmem => hk' c hmem hkey, hjoined]
  · rw [hqueue']
    exact fun c hc => absurd hc List.not_mem_nil
  · intro c hc
    right
    rcases h.gone c hc with hmem | hin | hgone
    · exact .inl (hnew (hqueue ▸ hmem))
    · left
      rw [hold, hin]
      intro c' hc' heq
      rw [← heq, hapart c' hc'] at hin
      cases hin
    · right
      refine (hphase c).trans ?_
      rw [if_neg, hgone]
      intro hmem
      have hwaiting := (h.queue_mem c (hqueue ▸ hmem)).2
      rw [hgone] at hwaiting
      cases hwaiting
  · intro c hc
    refine (hphase c).trans ?_
    rw [if_neg fun hmem => hc (h.queue_mem c (hqueue ▸ hmem)).1, h.fresh c hc]

/-! ### `ClearClients` -/

theorem mem_values {m : Std.TreeMap Socket ClientPtr} :
    c ∈ m.toList.map Prod.snd ↔ ∃ k : Socket, m[k]? = some c := by
  simp only [List.mem_map, Prod.exists, Std.TreeMap.mem_toList_iff_getElem?_eq_some,
    exists_eq_right]

theorem nodup_values {m : Std.TreeMap Socket ClientPtr}
    (h : ∀ (k : Socket) (c : ClientPtr), m[k]? = some c → c.sockfd = k) :
    (m.toList.map Prod.snd).Nodup := by
  refine List.Nodup.of_map ClientPtr.sockfd ?_
  have hkeys : (m.toList.map Prod.snd).map ClientPtr.sockfd = m.toList.map Prod.fst := by
    rw [List.map_map]
    refine List.map_congr_left fun p hp => ?_
    exact h p.1 p.2 (Std.TreeMap.mem_toList_iff_getElem?_eq_some.mp hp)
  rw [hkeys, Std.TreeMap.map_fst_toList_eq_keys]
  exact Std.TreeMap.nodup_keys

/-- The loop over `_clients` deletes the clients that have joined. -/
theorem Accounted.clearMap (h : Accounted added d) (hwalk : d.walk = none) :
    Accounted added d.clearMap := by
  have hqueue : queue d.clearMap = queue d := (queue_of_walk_none hwalk).symm
  have hvalues : d.clearMap.log = d.log ++ (d.clients.toList.map Prod.snd).map .clear := by
    rw [List.map_map]
    rfl
  have hphase (c : ClientPtr) : clientProtocol.phase c d.clearMap.log =
      if c ∈ d.clients.toList.map Prod.snd then some .gone
      else clientProtocol.phase c d.log := by
    rw [hvalues, Protocol.phase_append_map (fun _ => rfl)
      (nodup_values fun k c hc => (h.map_mem k c hc).1)]
    split_ifs with hc
    · obtain ⟨k, hk⟩ := mem_values.mp hc
      rw [(h.map_mem k c hk).2.2]
      rfl
    · rfl
  have hsame {c : ClientPtr} (hc : clientProtocol.phase c d.log ≠ some .joined) :
      clientProtocol.phase c d.clearMap.log = clientProtocol.phase c d.log := by
    rw [hphase, if_neg]
    intro hmem
    obtain ⟨k, hk⟩ := mem_values.mp hmem
    exact hc (h.map_mem k c hk).2.2
  have hempty (k : Socket) : d.clearMap.clients[k]? = none := CellServer.getElem?_clearMap d k
  constructor
  · intro c hc
    obtain ⟨hadded, hwaiting⟩ := h.queue_mem c (hqueue ▸ hc)
    exact ⟨hadded, (hsame (by simp [hwaiting])).trans hwaiting⟩
  · rw [hqueue]
    exact h.queue_nodup
  · intro k c hc
    rw [hempty] at hc
    cases hc
  · exact fun c _ => hempty _
  · intro c hc
    rcases h.gone c hc with hmem | hin | hgone
    · exact .inl (hqueue ▸ hmem)
    · exact .inr (.inr ((hphase c).trans (if_pos (mem_values.mpr ⟨_, hin⟩))))
    · exact .inr (.inr ((hsame (by simp [hgone])).trans hgone))
  · intro c hc
    have hwaiting := h.fresh c hc
    exact (hsame (by simp [hwaiting])).trans hwaiting

/-- A step of the loop over the queue deletes the client at its front. -/
theorem Accounted.clearNext (h : Accounted added d) {k n : ℕ} (hwalk : d.walk = some (k, n))
    (hc : d.clientsBuff[k]? = some c) :
    Accounted added { d.record [.clear c] with walk := some (k + 1, n) } := by
  have hqueue : queue d = c :: d.clientsBuff.drop (k + 1) := by
    rw [queue, hwalk]
    obtain ⟨hlt, rfl⟩ := List.getElem?_eq_some_iff.mp hc
    exact List.drop_eq_getElem_cons hlt
  have hqueue' : queue { d.record [.clear c] with walk := some (k + 1, n) } =
      d.clientsBuff.drop (k + 1) := rfl
  have hnodup := h.queue_nodup
  have hnodup' := nodup_of_nodup_sockfd hnodup
  rw [hqueue] at hnodup hnodup'
  obtain ⟨hadded, hwaiting⟩ := h.queue_mem c (hqueue ▸ List.mem_cons_self)
  have hphase (c' : ClientPtr) : clientProtocol.phase c' (d.log ++ [.clear c]) =
      if c' = c then some .gone else clientProtocol.phase c' d.log := by
    split_ifs with hcc
    · subst hcc
      have hclear : clientProtocol.about (.clear c') = c' := rfl
      rw [Protocol.phase_append_singleton hclear, hwaiting]
      rfl
    · refine Protocol.phase_append_of_ne fun e he heq => hcc ?_
      rw [List.mem_singleton.mp he] at heq
      exact heq.symm
  have hmem {c' : ClientPtr} (hc' : c' ∈ d.clientsBuff.drop (k + 1)) : c' ∈ queue d :=
    hqueue ▸ List.mem_cons_of_mem _ hc'
  constructor
  · intro c' hc'
    refine ⟨(h.queue_mem c' (hmem hc')).1, (hphase c').trans ?_⟩
    rw [if_neg, (h.queue_mem c' (hmem hc')).2]
    rintro rfl
    exact (List.nodup_cons.mp hnodup').1 hc'
  · exact (List.nodup_cons.mp hnodup).2
  · intro k' c' hc'
    obtain ⟨hkey, hadded', hjoined⟩ := h.map_mem k' c' hc'
    refine ⟨hkey, hadded', (hphase c').trans ?_⟩
    rw [if_neg, hjoined]
    rintro rfl
    rw [hwaiting] at hjoined
    cases hjoined
  · exact fun c' hc' => h.apart c' (hmem hc')
  · intro c' hc'
    by_cases hcc : c' = c
    · exact .inr (.inr ((hphase c').trans (if_pos hcc)))
    · rcases h.gone c' hc' with hq | hin | hgone
      · rw [hqueue] at hq
        exact .inl ((List.mem_cons.mp hq).resolve_left hcc)
      · exact .inr (.inl hin)
      · exact .inr (.inr (((hphase c').trans (if_neg hcc)).trans hgone))
  · intro c' hc'
    refine (hphase c').trans ?_
    rw [if_neg, h.fresh c' hc']
    rintro rfl
    exact hc' hadded

/-- The `clear()` behind that loop removes what is left in the queue; those clients are not
deleted, and they are in no place any more. -/
theorem Accounted.clearBuff (h : Accounted added d) :
    Accounted (added.filter (· ∉ queue d)) d.clearBuff := by
  have hqueue : queue d.clearBuff = [] := List.drop_nil
  have hmem {c : ClientPtr} :
      c ∈ added.filter (· ∉ queue d) ↔ c ∈ added ∧ c ∉ queue d := by
    rw [List.mem_filter, decide_eq_true_iff]
  constructor
  · rw [hqueue]
    exact fun c hc => absurd hc List.not_mem_nil
  · rw [hqueue]
    exact .nil
  · intro k c hc
    obtain ⟨hkey, hadded, hjoined⟩ := h.map_mem k c hc
    refine ⟨hkey, hmem.mpr ⟨hadded, fun hin => ?_⟩, hjoined⟩
    have hnone := h.apart c hin
    rw [hkey] at hnone
    exact absurd (hc.symm.trans hnone) (by simp)
  · rw [hqueue]
    exact fun c hc => absurd hc List.not_mem_nil
  · intro c hc
    obtain ⟨hadded, hout⟩ := hmem.mp hc
    exact .inr ((h.gone c hadded).resolve_left hout)
  · intro c hc
    by_cases hin : c ∈ queue d
    · exact (h.queue_mem c hin).2
    · exact h.fresh c fun hadded => hc (hmem.mpr ⟨hadded, hin⟩)

/-! ### New clients -/

/-- A client that is new, with a descriptor nobody else has, enters the queue. -/
theorem Accounted.addClient (h : Accounted added d)
    (hle : d.walk.elim 0 Prod.fst ≤ d.clientsBuff.length) (hnew : c ∉ added)
    (hsock : ∀ c' ∈ added, c'.sockfd = c.sockfd → Deleted d.log c') (moves : Bool) :
    Accounted (added ++ [c]) (d.addClient c moves) := by
  have hqueue' : queue (d.addClient c moves) = queue d ++ [c] :=
    List.drop_append_of_le_length hle
  -- who waits or has joined is not deleted, so its descriptor is another one
  have hother {c' : ClientPtr} (hc' : c' ∈ added) {p : Standing} (hp : p ≠ .leaving)
      (hgone : p ≠ .gone) (hphase : clientProtocol.phase c' d.log = some p) :
      c'.sockfd ≠ c.sockfd := fun heq =>
    hgone ((deleted_iff hp hphase).mp (hsock c' hc' heq))
  have hwaits {c' : ClientPtr} (hc' : c' ∈ queue d) : c'.sockfd ≠ c.sockfd := by
    obtain ⟨hadded, hwaiting⟩ := h.queue_mem c' hc'
    exact hother hadded (by decide) (by decide) hwaiting
  have hserved {k : Socket} {c' : ClientPtr} (hc' : d.clients[k]? = some c') :
      k ≠ c.sockfd := by
    obtain ⟨hkey, hadded, hjoined⟩ := h.map_mem k c' hc'
    rw [← hkey]
    exact hother hadded (by decide) (by decide) hjoined
  constructor
  · intro c' hc'
    rw [hqueue'] at hc'
    rcases List.mem_append.mp hc' with hc' | hc'
    · exact ⟨List.mem_append_left _ (h.queue_mem c' hc').1, (h.queue_mem c' hc').2⟩
    · rw [List.mem_singleton.mp hc']
      exact ⟨List.mem_append_right _ (List.mem_singleton_self c), h.fresh c hnew⟩
  · rw [hqueue', List.map_append, List.map_singleton]
    refine List.Nodup.append h.queue_nodup (List.nodup_singleton _) ?_
    intro k hk hk'
    obtain ⟨c', hc', rfl⟩ := List.mem_map.mp hk
    exact hwaits hc' (List.mem_singleton.mp hk')
  · intro k c' hc'
    obtain ⟨hkey, hadded, hjoined⟩ := h.map_mem k c' hc'
    exact ⟨hkey, List.mem_append_left _ hadded, hjoined⟩
  · intro c' hc'
    rw [hqueue'] at hc'
    rcases List.mem_append.mp hc' with hc' | hc'
    · exact h.apart c' hc'
    · rw [List.mem_singleton.mp hc']
      by_contra hsome
      obtain ⟨c'', hc''⟩ := Option.ne_none_iff_exists'.mp hsome
      exact hserved hc'' rfl
  · intro c' hc'
    rw [hqueue']
    rcases List.mem_append.mp hc' with hc' | hc'
    · exact (h.gone c' hc').imp_left (List.mem_append_left _)
    · exact .inl (List.mem_append_right _ hc')
  · intro c' hc'
    exact h.fresh c' fun hmem => hc' (List.mem_append_left _ hmem)

/-! ## Steps of the thread -/

/-- In the loop of `recvData`, the client at hand is in the map. -/
def Handled (d : CellServer) : Loc → Prop
  | .handle c _ _ _ => d.clients[c.sockfd]? = some c
  | _ => True

/-- What a step of `onRun` does to the clients. -/
inductive Change (d : CellServer) : CellServer → Prop where
  | same {d' : CellServer} : CellServer.Same d d' → Change d d'
  | merge : Change d d.merge
  | use {k : Socket} {c : ClientPtr} {es : List Event} : d.clients[k]? = some c →
      (∀ e ∈ es, client e = c ∧ IsUse e) → Change d (d.record es)
  | leave {k : Socket} {c : ClientPtr} {es : List Event} : d.clients[k]? = some c →
      (∀ e ∈ es, client e = c ∧ IsUse e) → Change d ((d.record es).onClientLeave c k)

variable {isRun : Bool} {l : Loc} {i : Env} {n : Next Loc}

/-- **What a step of `onRun` does** is one of the operations above. -/
theorem change_of_onRun (hl : Handled d l) (h : d.onRun isRun l i = some (d', n)) :
    Change d d' := by
  cases CellServer.onRun_cases h with
  | idle _ hsame => exact .same hsame
  | selectFails => exact .same (.refl d)
  | merge => exact .merge
  | recv hc | send hc | heart hc => exact .use hc (by simp [client, IsUse])
  | msg => exact .use hl (by simp [client, IsUse])
  | recvFails hc | sendFails hc | heartFails hc => exact .leave hc (by simp [client, IsUse])

theorem Change.undefined (h : Change d d') : d'.undefined = d.undefined := by
  cases h with
  | same hsame => exact hsame.undefined
  | _ => rfl

theorem Change.accounted (hchange : Change d d') (h : Accounted added d) (hwalk : d.walk = none) :
    Accounted added d' ∧ d'.walk = none := by
  cases hchange with
  | same hsame =>
    refine ⟨h.congr hsame.clients ?_ fun c => by rw [hsame.log], hsame.walk.trans hwalk⟩
    rw [queue, queue, hsame.clientsBuff, hsame.walk]
  | merge => exact ⟨h.merge hwalk, hwalk⟩
  | use hc hes => exact ⟨h.use hc hes, hwalk⟩
  | leave hc hes => exact ⟨(h.use hc hes).leave hc, hwalk⟩

/-- The same of where a step of `onRun` leads. -/
def HandledNext (d : CellServer) : Next Loc → Prop
  | .goto l | .exit l => Handled d l
  | .ret => True

/-- The loop of `recvData` is entered with the client that was looked up, and that client
stays in the map while the thread is in the loop. -/
theorem handled_of_onRun (h : Accounted added d) (hl : Handled d l)
    (hstep : d.onRun isRun l i = some (d', n)) : HandledNext d' n := by
  cases CellServer.onRun_cases hstep with
  | idle _ _ hn =>
    cases n with
    | goto l' => cases l' <;> first | exact trivial | exact hn.elim
    | exit l' => exact hn.elim
    | ret => exact trivial
  | @recv k c _ _ _ _ hc =>
    show d.clients[c.sockfd]? = some c
    rw [(h.map_mem k c hc).1, hc]
  | msg => exact hl
  | _ => exact trivial

end Lifecycle
end EasyTcpServer
