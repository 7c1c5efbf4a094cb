import EasyTcpServer.Client.LoadTest
import Mathlib.Algebra.BigOperators.Group.Finset.Piecewise
import Mathlib.Data.Fintype.Card

/-!
# The threads of the load test

One invariant of all threads of `send_Thread`: where a thread is says which of its clients it has
made and connected, that it was counted in `readyCount`, and which of its clients it has sent a
request to in the current round.  A thread is past the wait only when all have arrived.

* `Moves`: what a step of a thread from one place to another does.
* `Inv.moves`: such a step keeps the invariant.
* `Inv.moves_of_step`: each step of a thread is one.
-/

namespace EasyTcpServer

open Client (Process)

namespace LoadTest

variable {tCount cCount : ℕ} {login : Login} {s t : State tCount} {k j : Fin tCount} {n : ℕ}
  {l l' : Loc} {i : Env}

/-! ## The invariant -/

/-- What the threads have done. -/
structure Inv (cCount : ℕ) (s : State tCount) : Prop where
  inRange : ∀ k, InRange cCount k (s.threads k)
  made : ∀ k n, Share cCount k n → (s.process.clients n ≠ none ↔ Made n (s.threads k))
  tried : ∀ k n, Share cCount k n → (n ∈ s.tried ↔ Tried n (s.threads k))
  shared : ∀ n, s.process.clients n ≠ none → ∃ k : Fin tCount, Share cCount k n
  ready : s.readyCount = s.threadsAt Arrived
  requested : s.requests.length = s.sendCount.total + s.threadsAt InRound
  round : ∀ k, ∃ r, Round cCount k s.requests (s.threads k) r
  past : ∀ k, Past (s.threads k) → ∀ j, Arrived (s.threads j)
  requests : s.requests ≠ [] → ∀ j, Arrived (s.threads j)
  sharedRequests : ∀ n ∈ s.requests, ∃ k : Fin tCount, Share cCount k n
  endless : ∀ k, ¬ Behind (s.threads k)

/-- When the counter has come to `tCount`, all threads have arrived. -/
theorem Inv.arrived_of_ready (h : Inv cCount s) (hready : tCount ≤ s.readyCount) (j : Fin tCount) :
    Arrived (s.threads j) := by
  rw [h.ready, State.threadsAt] at hready
  have hcard : (Finset.univ.filter fun k => Arrived (s.threads k)).card =
      (Finset.univ : Finset (Fin tCount)).card :=
    le_antisymm (Finset.card_le_card (Finset.filter_subset _ _)) (by simpa using hready)
  have hall := Finset.eq_of_subset_of_card_le (Finset.filter_subset _ _) hcard.ge
  have hmem : j ∈ Finset.univ.filter fun k => Arrived (s.threads k) := by
    rw [hall]
    exact Finset.mem_univ j
  exact (Finset.mem_filter.mp hmem).2

/-- What a step of a thread leaves alone, and that it counts nothing down. -/
structure Frame (s t : State tCount) : Prop where
  main : t.main = s.main
  flag : t.flag = s.flag
  cmd : t.cmd = s.cmd
  sendCount : ∃ m, t.sendCount = s.sendCount.add m
  recvCount : ∃ m, t.recvCount = s.recvCount.add m
  process : t.process = s.process ∨ ∃ a, s.process.step a = some t.process

theorem Frame.uncounted {s t : State tCount} (hmain : t.main = s.main) (hflag : t.flag = s.flag)
    (hcmd : t.cmd = s.cmd) (hsendCount : t.sendCount = s.sendCount)
    (hrecvCount : t.recvCount = s.recvCount)
    (hprocess : t.process = s.process ∨ ∃ a, s.process.step a = some t.process) : Frame s t :=
  ⟨hmain, hflag, hcmd, hsendCount ▸ Counter.exists_add, hrecvCount ▸ Counter.exists_add, hprocess⟩

/-- What a step of a thread from one place to another does. -/
structure Moves (cCount : ℕ) (k : Fin tCount) (l l' : Loc) (s t : State tCount) : Prop where
  frame : Frame s t
  threads : t.threads = Function.update s.threads k l'
  inRange : InRange cCount k l'
  /-- The clients of the others are left alone. -/
  others : ∀ n, ¬ Share cCount k n → t.process.clients n = s.process.clients n ∧
    (n ∈ t.tried ↔ n ∈ s.tried)
  made : ∀ n, Share cCount k n → (t.process.clients n ≠ none ↔ Made n l')
  tried : ∀ n, Share cCount k n → (n ∈ t.tried ↔ Tried n l')
  ready : t.readyCount + (if Arrived l then 1 else 0) =
    s.readyCount + if Arrived l' then 1 else 0
  requested : t.requests.length + s.sendCount.total + (if InRound l then 1 else 0) =
    s.requests.length + t.sendCount.total + if InRound l' then 1 else 0
  arrived : Arrived l → Arrived l'
  past : Past l' → ¬ Past l → tCount ≤ s.readyCount
  requests : t.requests = s.requests ∨
    Past l ∧ ∃ n, Share cCount k n ∧ t.requests = s.requests ++ [n]
  round : ∀ r, Round cCount k s.requests l r → ∃ r, Round cCount k t.requests l' r
  endless : ¬ Behind l'

theorem threadsAt_update (P : Loc → Prop) [DecidablePred P] (hk : s.threads k = l)
    (ht : t.threads = Function.update s.threads k l') :
    t.threadsAt P + (if P l then 1 else 0) = s.threadsAt P + if P l' then 1 else 0 := by
  have hsum (u : State tCount) : u.threadsAt P = (if P (u.threads k) then 1 else 0) +
      ∑ j ∈ Finset.univ.erase k, if P (u.threads j) then 1 else 0 := by
    rw [State.threadsAt, Finset.card_filter]
    exact (Finset.add_sum_erase _ _ (Finset.mem_univ k)).symm
  have hrest : (∑ j ∈ Finset.univ.erase k, if P (t.threads j) then 1 else 0) =
      ∑ j ∈ Finset.univ.erase k, if P (s.threads j) then 1 else 0 := by
    refine Finset.sum_congr rfl fun j hj => ?_
    rw [ht, Function.update_of_ne (Finset.ne_of_mem_erase hj)]
  rw [hsum t, hsum s, hrest, ht, Function.update_self, hk]
  omega

/-- **A step of a thread keeps the invariant.** -/
theorem Inv.moves (h : Inv cCount s) (hk : s.threads k = l) (hm : Moves cCount k l l' s t) :
    Inv cCount t := by
  have hself : t.threads k = l' := by rw [hm.threads, Function.update_self]
  have hother : ∀ j, j ≠ k → t.threads j = s.threads j := fun j hj => by
    rw [hm.threads, Function.update_of_ne hj]
  have harrived : ∀ j, Arrived (s.threads j) → Arrived (t.threads j) := by
    intro j hj
    by_cases hjk : j = k
    · rw [hjk, hself]
      rw [hjk, hk] at hj
      exact hm.arrived hj
    · rwa [hother j hjk]
  refine ⟨fun j => ?_, fun j n hn => ?_, fun j n hn => ?_, fun n hn => ?_, ?_, ?_, fun j => ?_,
    fun j hj => ?_, fun hreq => ?_, fun n hn => ?_, fun j => ?_⟩
  · by_cases hjk : j = k
    · rw [hjk, hself]
      exact hm.inRange
    · rw [hother j hjk]
      exact h.inRange j
  · by_cases hjk : j = k
    · subst hjk
      rw [hself]
      exact hm.made n hn
    · rw [hother j hjk, (hm.others n fun hn' => hjk (hn.unique hn')).1]
      exact h.made j n hn
  · by_cases hjk : j = k
    · subst hjk
      rw [hself]
      exact hm.tried n hn
    · rw [hother j hjk, (hm.others n fun hn' => hjk (hn.unique hn')).2]
      exact h.tried j n hn
  · by_cases hshare : Share cCount k n
    · exact ⟨k, hshare⟩
    · rw [(hm.others n hshare).1] at hn
      exact h.shared n hn
  · have hcount := threadsAt_update Arrived hk hm.threads
    have hready := hm.ready
    have hold := h.ready
    omega
  · have hcount := threadsAt_update InRound hk hm.threads
    have hrequested := hm.requested
    have hold := h.requested
    omega
  · obtain ⟨r, hr⟩ := h.round j
    by_cases hjk : j = k
    · subst hjk
      rw [hself]
      exact hm.round r (hk ▸ hr)
    · refine ⟨r, fun n hn => ?_⟩
      rw [hother j hjk, ← hr n hn]
      rcases hm.requests with hsame | ⟨-, m, hshare, hadd⟩
      · rw [hsame]
      · have hmn : m ≠ n := fun hmn => hjk (hn.unique (hmn ▸ hshare))
        rw [hadd, List.count_append, List.count_singleton, if_neg (by simpa using hmn),
          Nat.add_zero]
  · intro m
    refine harrived m ?_
    by_cases hjk : j = k
    · rw [hjk, hself] at hj
      by_cases hold : Past l
      · exact h.past k (hk ▸ hold) m
      · exact h.arrived_of_ready (hm.past hj hold) m
    · rw [hother j hjk] at hj
      exact h.past j hj m
  · intro m
    refine harrived m ?_
    rcases hm.requests with hsame | ⟨hold, -⟩
    · exact h.requests (hsame ▸ hreq) m
    · exact h.past k (hk ▸ hold) m
  · rcases hm.requests with hsame | ⟨-, m, hshare, hadd⟩
    · exact h.sharedRequests n (hsame ▸ hn)
    · rw [hadd, List.mem_append, List.mem_singleton] at hn
      rcases hn with hn | rfl
      · exact h.sharedRequests n hn
      · exact ⟨k, hshare⟩
  · by_cases hjk : j = k
    · rw [hjk, hself]
      exact hm.endless
    · rw [hother j hjk]
      exact h.endless j

/-! ## The steps of a thread -/

/-- A method is called. -/
theorem client_cases {a : Client.Act} {u : State tCount} (h : s.client k n a l' = some u) :
    ∃ p, u = { s.goto k l' with process := p } ∧ (∃ b, s.process.step b = some p) ∧
      (∀ m, m ≠ n → p.clients m = s.process.clients m) ∧
      s.process.clients n ≠ none ∧ p.clients n ≠ none := by
  obtain ⟨p, hp, rfl⟩ := Option.map_eq_some_iff.mp h
  refine ⟨p, rfl, ⟨_, hp⟩, ?_⟩
  obtain ⟨c, hc, hp⟩ := Option.bind_eq_some_iff.mp hp
  obtain ⟨d, -, hp⟩ := Option.bind_eq_some_iff.mp hp
  obtain ⟨-, rfl⟩ := Machine.guarded_eq_some.mp hp
  refine ⟨fun m hm => Function.update_of_ne hm _ _, ?_, ?_⟩
  · rw [hc]
    exact Option.some_ne_none c
  · show Function.update s.process.clients n (some d) n ≠ none
    rw [Function.update_self]
    exact Option.some_ne_none d

/-- All clients of the share are made and connected. -/
def SetUp : Loc → Prop
  | .unborn | .new _ | .connect _ => False
  | _ => True

theorem SetUp.made (h : SetUp l) (n : ℕ) : Made n l := by
  cases l <;> first | exact h.elim | trivial

theorem Arrived.setUp (h : Arrived l) : SetUp l := by
  cases l <;> first | exact h.elim | trivial

theorem SetUp.tried (h : SetUp l) (n : ℕ) : Tried n l := by
  cases l <;> first | exact h.elim | trivial

/-- A step behind the two loops that set the clients up. -/
theorem Inv.moves_setUp (h : Inv cCount s) (hk : s.threads k = l) (hframe : Frame s t)
    (hthreads : t.threads = Function.update s.threads k l') (hrange : InRange cCount k l')
    (hothers : ∀ n, ¬ Share cCount k n → t.process.clients n = s.process.clients n)
    (hclients : ∀ n, t.process.clients n ≠ none ↔ s.process.clients n ≠ none)
    (htried : t.tried = s.tried) (hl : SetUp l) (hl' : SetUp l')
    (hready : t.readyCount + (if Arrived l then 1 else 0) =
      s.readyCount + if Arrived l' then 1 else 0)
    (hrequested : t.requests.length + s.sendCount.total + (if InRound l then 1 else 0) =
      s.requests.length + t.sendCount.total + if InRound l' then 1 else 0)
    (harrived : Arrived l → Arrived l') (hpast : Past l' → ¬ Past l → tCount ≤ s.readyCount)
    (hrequests : t.requests = s.requests ∨
      Past l ∧ ∃ n, Share cCount k n ∧ t.requests = s.requests ++ [n])
    (hround : ∀ r, Round cCount k s.requests l r → ∃ r, Round cCount k t.requests l' r)
    (hendless : ¬ Behind l') : Moves cCount k l l' s t := by
  refine ⟨hframe, hthreads, hrange, fun n hn => ⟨hothers n hn, by rw [htried]⟩, fun n hn => ?_,
    fun n hn => ?_, hready, hrequested, harrived, hpast, hrequests, hround, hendless⟩
  · rw [hclients, h.made k n hn, hk]
    exact iff_of_true (hl.made n) (hl'.made n)
  · rw [htried, h.tried k n hn, hk]
    exact iff_of_true (hl.tried n) (hl'.tried n)

/-- Such a step in which nothing happens, of a thread that has arrived. -/
theorem Inv.moves_goto (h : Inv cCount s) (hk : s.threads k = l) (hrange : InRange cCount k l')
    (harrived : Arrived l) (harrived' : Arrived l') (hround : InRound l ↔ InRound l')
    (hpast : ¬ Past l → tCount ≤ s.readyCount)
    (hnext : ∀ r, Round cCount k s.requests l r → ∃ r, Round cCount k s.requests l' r)
    (hendless : ¬ Behind l') : Moves cCount k l l' s (s.goto k l') := by
  refine h.moves_setUp hk (.uncounted rfl rfl rfl rfl rfl (.inl rfl)) rfl hrange
    (fun _ _ => rfl) (fun _ => Iff.rfl) rfl harrived.setUp harrived'.setUp ?_ ?_
    (fun _ => harrived') (fun _ => hpast) (.inl rfl) hnext hendless
  · rw [if_pos harrived, if_pos harrived']
    rfl
  · rw [if_congr hround rfl rfl]
    rfl

/-- Such a step in which a method is called, of a client of the thread. -/
theorem Inv.moves_client (h : Inv cCount s) (hk : s.threads k = l) {a : Client.Act}
    {u : State tCount} (hn : Share cCount k n) (hu : s.client k n a l' = some u)
    (hrange : InRange cCount k l') (hround : InRound l) (hround' : InRound l')
    (hsent : ∀ m, sentTo m l' = sentTo m l) : Moves cCount k l l' s u := by
  obtain ⟨p, rfl, hprocess, hp, hold, hnew⟩ := client_cases hu
  refine h.moves_setUp hk (.uncounted rfl rfl rfl rfl rfl (.inr hprocess)) rfl hrange
    (fun m hm => hp m ?_) (fun m => ?_) rfl hround.past.arrived.setUp hround'.past.arrived.setUp
    ?_ ?_ (fun _ => hround'.past.arrived) (fun _ hnot => absurd hround.past hnot) (.inl rfl)
    (fun r hr => ⟨r, fun m hm => (hr m hm).trans (by rw [hsent m])⟩) hround'.not_behind
  · rintro rfl
    exact hm hn
  · by_cases hmn : m = n
    · subst hmn
      exact iff_of_true hnew hold
    · show p.clients m ≠ none ↔ _
      rw [hp m hmn]
  · rw [if_pos hround.past.arrived, if_pos hround'.past.arrived]
    rfl
  · rw [if_pos hround, if_pos hround']
    rfl

/-- A step in the loop with `new`. -/
theorem Inv.moves_of_new (h : Inv cCount s) (hk : s.threads k = .new n)
    (hstep : threadStep cCount login s k (.new n) i = some t) :
    ∃ l', Moves cCount k (.new n) l' s t := by
  have hrange := h.inRange k
  have hmade := h.made k
  have htried := h.tried k
  rw [hk] at hrange hmade htried
  obtain ⟨hfirst, hlast⟩ := hrange
  cases i with
  | construct startup sock =>
    simp only [threadStep, Option.ite_none_right_eq_some, Option.map_eq_some_iff] at hstep
    obtain ⟨hlt, p, hp, rfl⟩ := hstep
    have hprocess := hp
    simp only [Process.step, Process.next, Option.ite_none_right_eq_some,
      Option.some.injEq] at hp
    obtain ⟨-, -, rfl⟩ := hp
    refine ⟨.new (n + 1), .uncounted rfl rfl rfl rfl rfl (.inr ⟨_, hprocess⟩), rfl,
      ⟨by omega, hlt⟩, fun m hm => ⟨Function.update_of_ne ?_ _ _, Iff.rfl⟩, fun m hm => ?_,
      htried, rfl, rfl, id, fun hpast => hpast.elim, .inl rfl, fun r hr => ⟨r, hr⟩, id⟩
    · rintro rfl
      exact hm ⟨hfirst, hlt⟩
    · show Function.update s.process.clients n (some _) m ≠ none ↔ m < n + 1
      by_cases hmn : m = n
      · rw [hmn, Function.update_self]
        exact iff_of_true (Option.some_ne_none _) (Nat.lt_succ_self n)
      · rw [Function.update_of_ne hmn, hmade m hm]
        show m < n ↔ m < n + 1
        omega
  | tau =>
    simp only [threadStep] at hstep
    split_ifs at hstep with hlt
    obtain rfl := Option.some.inj hstep
    refine ⟨.connect (first cCount k), .uncounted rfl rfl rfl rfl rfl (.inl rfl), rfl,
      ⟨le_rfl, first_le_last⟩, fun m hm => ⟨rfl, Iff.rfl⟩, fun m hm => ?_, fun m hm => ?_, rfl,
      rfl, id, fun hpast => hpast.elim, .inl rfl, fun r hr => ⟨r, hr⟩, id⟩
    · refine (hmade m hm).trans (iff_of_true ?_ trivial)
      show m < n
      have := hm.2
      omega
    · exact (htried m hm).trans (iff_of_false id (not_lt.mpr hm.1))
  | _ => cases hstep

/-- A step in the loop with `Connect`. -/
theorem Inv.moves_of_connect (h : Inv cCount s) (hk : s.threads k = .connect n)
    (hstep : threadStep cCount login s k (.connect n) i = some t) :
    ∃ l', Moves cCount k (.connect n) l' s t := by
  have hrange := h.inRange k
  have hmade := h.made k
  have htried := h.tried k
  rw [hk] at hrange hmade htried
  obtain ⟨hfirst, hlast⟩ := hrange
  cases i with
  | connect startup sock success =>
    simp only [threadStep, Option.ite_none_right_eq_some, Option.map_eq_some_iff] at hstep
    obtain ⟨hlt, u, hu, rfl⟩ := hstep
    obtain ⟨p, rfl, hprocess, hp, hold, hnew⟩ := client_cases hu
    refine ⟨.connect (n + 1), .uncounted rfl rfl rfl rfl rfl (.inr hprocess), rfl,
      ⟨by omega, hlt⟩, fun m hm => ?_, fun m hm => ?_, fun m hm => ?_, rfl, rfl, id,
      fun hpast => hpast.elim, .inl rfl, fun r hr => ⟨r, hr⟩, id⟩
    · have hmn : m ≠ n := by
        rintro rfl
        exact hm ⟨hfirst, hlt⟩
      refine ⟨hp m hmn, ?_⟩
      show m ∈ s.tried ++ [n] ↔ m ∈ s.tried
      rw [List.mem_append, List.mem_singleton, or_iff_left hmn]
    · refine iff_of_true ?_ trivial
      by_cases hmn : m = n
      · rw [hmn]
        exact hnew
      · show p.clients m ≠ none
        rw [hp m hmn]
        exact (hmade m hm).mpr trivial
    · show m ∈ s.tried ++ [n] ↔ m < n + 1
      rw [List.mem_append, List.mem_singleton, htried m hm]
      show m < n ∨ m = n ↔ m < n + 1
      omega
  | tau =>
    simp only [threadStep] at hstep
    split_ifs at hstep with hlt
    obtain rfl := Option.some.inj hstep
    refine ⟨.ready, .uncounted rfl rfl rfl rfl rfl (.inl rfl), rfl, trivial,
      fun m hm => ⟨rfl, Iff.rfl⟩, hmade, fun m hm => ?_, rfl, rfl, id, fun hpast => hpast.elim,
      .inl rfl, fun r hr => ⟨r, hr⟩, id⟩
    refine (htried m hm).trans (iff_of_true ?_ trivial)
    show m < n
    have := hm.2
    omega
  | _ => cases hstep

/-- **What a step of a thread does.** -/
theorem Inv.moves_of_step (h : Inv cCount s) (hk : s.threads k = l)
    (hstep : threadStep cCount login s k l i = some t) : ∃ l', Moves cCount k l l' s t := by
  have hrange := h.inRange k
  have hendless := h.endless k
  rw [hk] at hrange hendless
  cases l with
  | new n => exact h.moves_of_new hk hstep
  | connect n => exact h.moves_of_connect hk hstep
  | ready =>
    cases i with
    | tau =>
      obtain rfl := Option.some.inj hstep
      exact ⟨.wait, h.moves_setUp hk (.uncounted rfl rfl rfl rfl rfl (.inl rfl)) rfl trivial
        (fun _ _ => rfl) (fun _ => Iff.rfl) rfl trivial trivial rfl rfl (fun _ => trivial)
        (fun hpast => hpast.elim) (.inl rfl) (fun r hr => ⟨r, hr⟩) id⟩
    | _ => cases hstep
  | wait =>
    cases i with
    | tau =>
      obtain rfl := Option.some.inj hstep
      split_ifs with hlt
      · have hsame : s.threads = Function.update s.threads k .wait := by
          rw [← hk, Function.update_eq_self]
        exact ⟨.wait, h.moves_setUp hk (.uncounted rfl rfl rfl rfl rfl (.inl rfl)) hsame trivial
          (fun _ _ => rfl) (fun _ => Iff.rfl) rfl trivial trivial rfl rfl id
          (fun hpast => hpast.elim) (.inl rfl) (fun r hr => ⟨r, hr⟩) id⟩
      · exact ⟨.loop, h.moves_goto hk trivial trivial trivial Iff.rfl (fun _ => not_lt.mp hlt)
          (fun r hr => ⟨r, hr⟩) id⟩
    | _ => cases hstep
  | loop =>
    cases i with
    | tau =>
      obtain rfl := Option.some.inj hstep
      exact ⟨.send (first cCount k), h.moves_goto hk le_rfl trivial trivial Iff.rfl
        (fun hnot => absurd trivial hnot) (fun r hr => ⟨r, fun m hm => (hr m hm).trans
          (congrArg (r + ·) (if_neg (not_lt.mpr hm.1)).symm)⟩) id⟩
    | _ => cases hstep
  | send n =>
    cases i with
    | sendData r =>
      simp only [threadStep, Option.ite_none_right_eq_some, Option.bind_eq_some_iff,
        Option.some.injEq] at hstep
      obtain ⟨hlt, c, -, -, rfl⟩ := hstep
      refine ⟨.run n, h.moves_setUp hk (.uncounted rfl rfl rfl rfl rfl (.inl rfl)) rfl
        ⟨hrange, hlt⟩ (fun _ _ => rfl) (fun _ => Iff.rfl) rfl trivial trivial rfl ?_
        (fun _ => trivial) (fun _ hnot => absurd trivial hnot)
        (.inr ⟨trivial, n, ⟨hrange, hlt⟩, rfl⟩) (fun r hr => ⟨r, hr.send⟩) id⟩
      show (s.requests ++ [n]).length + s.sendCount.total + 0 =
        s.requests.length + s.sendCount.total + 1
      rw [List.length_append, List.length_singleton]
      omega
    | tau =>
      simp only [threadStep] at hstep
      split_ifs at hstep with hlt
      obtain rfl := Option.some.inj hstep
      exact ⟨.loop, h.moves_goto hk trivial trivial trivial Iff.rfl
        (fun hnot => absurd trivial hnot) (fun r hr => ⟨r + 1, hr.next (not_lt.mp hlt)⟩) id⟩
    | _ => cases hstep
  | run n =>
    cases i with
    | onRun ready =>
      exact ⟨.turn n, h.moves_client hk hrange hstep hrange trivial trivial fun _ => rfl⟩
    | _ => cases hstep
  | turn n =>
    cases i with
    | tau =>
      obtain ⟨c, hc, hstep⟩ := Option.bind_eq_some_iff.mp hstep
      split_ifs at hstep
      · obtain rfl := Option.some.inj hstep
        exact ⟨.count n, h.moves_goto hk hrange trivial trivial Iff.rfl
          (fun hnot => absurd trivial hnot) (fun r hr => ⟨r, hr⟩) id⟩
      · obtain ⟨u, hu, rfl⟩ := Option.map_eq_some_iff.mp hstep
        have hm := h.moves_client hk hrange hu hrange trivial trivial fun _ => rfl
        obtain ⟨p, rfl, hp, -⟩ := client_cases hu
        exact ⟨.turn n, ⟨rfl, rfl, rfl, Counter.exists_add, ⟨_, rfl⟩, .inr hp⟩, hm.threads,
          hm.inRange, hm.others, hm.made, hm.tried, hm.ready, hm.requested, hm.arrived, hm.past,
          hm.requests, hm.round, hm.endless⟩
    | _ => cases hstep
  | count n =>
    cases i with
    | tau =>
      obtain rfl := Option.some.inj hstep
      have hframe : Frame s { s with
          sendCount := s.sendCount.add 1
          threads := Function.update s.threads k (.send (n + 1)) } :=
        ⟨rfl, rfl, rfl, ⟨1, rfl⟩, Counter.exists_add, .inl rfl⟩
      exact ⟨.send (n + 1), h.moves_setUp hk hframe rfl
        (hrange.1.trans (Nat.le_succ n)) (fun _ _ => rfl) (fun _ => Iff.rfl) rfl trivial trivial rfl
        rfl (fun _ => trivial) (fun _ hnot => absurd trivial hnot) (.inl rfl)
        (fun r hr => ⟨r, fun m hm => (hr m hm).trans (by simp only [sentTo, Nat.lt_succ_iff])⟩) id⟩
    | _ => cases hstep
  | close | delete | done => exact absurd trivial hendless
  | unborn => cases hstep

end LoadTest
end EasyTcpServer
