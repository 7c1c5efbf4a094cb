import EasyTcpServer.Client.LoadTestThreads

/-!
# What holds of the load test

`main` and `cmd_flag` beside the threads: `main` starts each thread once, the counters say what
was counted since the last reset, and the flag falls only with `exit`.

`loadTest_law`: each thread keeps to its share and goes over its clients in turn, nothing is sent
before all clients were connected, and nobody comes to the end of `send_Thread`; a client's socket
is closed in the main loop alone, by `onRun`.  What a thread counts between a read of `main` and
the reset is never printed.
-/

namespace EasyTcpServer

open Client (Process)

namespace LoadTest

variable {tCount cCount : ℕ} {login : Login} {s t : State tCount} {k : Fin tCount} {n : ℕ}
  {l l' : Loc}

/-! ## The program -/

/-- What `main` has read was there since the counters were set to zero. -/
def Reads (s : State tCount) : MainLoc → Prop
  | .print sendRead recvRead =>
    (∀ m ∈ sendRead, ReadBy s.sendCount.counted m) ∧ ∀ m ∈ recvRead, ReadBy s.recvCount.counted m
  | .clearSend sendRead recvRead =>
    ReadBy s.sendCount.counted sendRead ∧ ReadBy s.recvCount.counted recvRead
  | .clearRecv recvRead => ReadBy s.recvCount.counted recvRead
  | _ => True

/-- What holds throughout. -/
structure Good (cCount : ℕ) (s : State tCount) : Prop extends Inv cCount s where
  sockets : s.process.Law
  unborn : ∀ i, s.main = .start i → ∀ k : Fin tCount, i ≤ k → s.threads k = .unborn
  unbornCmd : (∃ i, s.main = .start i) ∨ s.main = .startCmd → s.cmd = .unborn
  sendCount : s.sendCount.Law
  recvCount : s.recvCount.Law
  reads : Reads s s.main
  flag : s.flag = false → s.cmd = .done
  returned : s.main = .returned → s.flag = false

theorem good_init : Good cCount (loadTest tCount cCount login).init := by
  refine ⟨⟨fun _ => trivial, fun _ _ _ => iff_of_false (fun h => h rfl) id,
    fun _ _ _ => iff_of_false List.not_mem_nil id, fun _ h => absurd rfl h, ?_, ?_,
    fun _ => ⟨0, fun _ _ => rfl⟩, fun _ h => h.elim, fun h => absurd rfl h,
    fun _ h => absurd h List.not_mem_nil, fun _ => id⟩,
    Process.law_of_reachable .init, fun _ _ _ _ => rfl, fun _ => rfl, Counter.law_new,
    Counter.law_new, trivial, fun h => Bool.noConfusion h, fun h => MainLoc.noConfusion h⟩
  · exact (Finset.card_eq_zero.mpr (Finset.filter_eq_empty_iff.mpr fun _ _ => id)).symm
  · exact ((Nat.zero_add _).trans
      (Finset.card_eq_zero.mpr (Finset.filter_eq_empty_iff.mpr fun _ _ => id))).symm

theorem ReadBy.mono {m : ℕ} {read : BitVec 32} (h : ReadBy m read) (hle : m ≤ n) :
    ReadBy n read := by
  obtain ⟨a, ha, hread⟩ := h
  exact ⟨a, ha.trans hle, hread⟩

/-- Reads stay so while the counters are counted up. -/
theorem Reads.mono {m : MainLoc} (h : Reads s m)
    (hsend : s.sendCount.counted ≤ t.sendCount.counted)
    (hrecv : s.recvCount.counted ≤ t.recvCount.counted) : Reads t m := by
  cases m with
  | print => exact ⟨fun m hm => (h.1 m hm).mono hsend, fun m hm => (h.2 m hm).mono hrecv⟩
  | clearSend => exact ⟨h.1.mono hsend, h.2.mono hrecv⟩
  | clearRecv => exact ReadBy.mono h hrecv
  | _ => trivial

theorem Good.moves (h : Good cCount s) (hk : s.threads k = l) (hborn : l ≠ .unborn)
    (hm : Moves cCount k l l' s t) : Good cCount t := by
  obtain ⟨hmain, hflag, hcmd, ⟨m, hsend⟩, ⟨m', hrecv⟩, hprocess⟩ := hm.frame
  refine ⟨h.toInv.moves hk hm, ?_, fun i hi j hj => ?_, ?_, ?_, ?_, ?_, ?_, ?_⟩
  · rcases hprocess with hsame | ⟨a, ha⟩
    · rw [hsame]
      exact h.sockets
    · exact h.sockets.step ha
  · rw [hmain] at hi
    have hold := h.unborn i hi j hj
    have hjk : j ≠ k := by
      rintro rfl
      exact hborn (hk.symm.trans hold)
    rw [hm.threads, Function.update_of_ne hjk]
    exact hold
  · rw [hmain, hcmd]
    exact h.unbornCmd
  · rw [hsend]
    exact h.sendCount.add m
  · rw [hrecv]
    exact h.recvCount.add m'
  · rw [hmain]
    exact h.reads.mono (hsend ▸ Nat.le_add_right _ _) (hrecv ▸ Nat.le_add_right _ _)
  · rw [hflag, hcmd]
    exact h.flag
  · rw [hmain, hflag]
    exact h.returned

/-- The threads do not see where `main` and `cmd_flag` are, and not what the counters say. -/
theorem Inv.other (h : Inv cCount s) {a b : Counter} {f : Bool} {m : MainLoc} {c : CmdLoc}
    (ha : a.total = s.sendCount.total) :
    Inv cCount { s with sendCount := a, recvCount := b, flag := f, main := m, cmd := c } :=
  ⟨h.inRange, h.made, h.tried, h.shared, h.ready, h.requested.trans (congrArg (· + _) ha.symm),
    h.round, h.past, h.requests, h.sharedRequests, h.endless⟩

/-- A step of `main` that leaves the threads and the counters alone. -/
theorem Good.main (h : Good cCount s) {m : MainLoc} {c : CmdLoc} (hm : ∀ i, m ≠ .start i)
    (hcmd : m = .startCmd → c = .unborn) (hreads : Reads s m) (hflag : s.flag = false → c = .done)
    (hreturned : m = .returned → s.flag = false) : Good cCount { s with main := m, cmd := c } :=
  ⟨h.toInv.other rfl, h.sockets, fun i hi => absurd hi (hm i),
    fun hor => hor.elim (fun ⟨i, hi⟩ => absurd hi (hm i)) hcmd, h.sendCount, h.recvCount,
    hreads.mono le_rfl le_rfl, hflag, hreturned⟩

/-- `main` starts a thread of `send_Thread`. -/
theorem Good.start (h : Good cCount s) {i : ℕ} (hmain : s.main = .start i) (hi : i < tCount) :
    Good cCount { s.goto ⟨i, hi⟩ (.new (first cCount ⟨i, hi⟩)) with main := .start (i + 1) } := by
  have hk := h.unborn i hmain ⟨i, hi⟩ le_rfl
  have hmade := h.made ⟨i, hi⟩
  have htried := h.tried ⟨i, hi⟩
  rw [hk] at hmade htried
  have hmoves : Moves cCount ⟨i, hi⟩ .unborn (.new (first cCount ⟨i, hi⟩)) s
      (s.goto ⟨i, hi⟩ (.new (first cCount ⟨i, hi⟩))) :=
    ⟨.uncounted rfl rfl rfl rfl rfl (.inl rfl), rfl, ⟨le_rfl, first_le_last⟩,
      fun _ _ => ⟨rfl, Iff.rfl⟩,
      fun n hn => (hmade n hn).trans (iff_of_false id (not_lt.mpr hn.1)), htried, rfl, rfl, id,
      fun hpast => hpast.elim, .inl rfl, fun r hr => ⟨r, hr⟩, id⟩
  refine ⟨(h.toInv.moves hk hmoves).other rfl, h.sockets, fun j hj k hjk => ?_, fun _ => ?_,
    h.sendCount, h.recvCount, trivial, h.flag, fun heq => MainLoc.noConfusion heq⟩
  · obtain rfl := MainLoc.start.inj hj
    have hki : k ≠ ⟨i, hi⟩ := by
      rintro rfl
      exact absurd hjk (Nat.not_succ_le_self i)
    show Function.update s.threads _ _ k = _
    rw [Function.update_of_ne hki]
    exact h.unborn i hmain k (Nat.le_of_succ_le hjk)
  · exact h.unbornCmd (.inl ⟨i, hmain⟩)

theorem Good.mainStep (h : Good cCount s) {choice : Bool}
    (hstep : mainStep cCount s s.main choice = some t) : Good cCount t := by
  have hreads := h.reads
  cases hmain : s.main with
  | start i =>
    rw [hmain] at hstep
    by_cases hlt : i < tCount
    · obtain rfl := Option.some.inj ((dif_pos hlt).symm.trans hstep)
      exact h.start hmain hlt
    · obtain rfl := Option.some.inj ((dif_neg hlt).symm.trans hstep)
      exact h.main (by simp) (fun _ => h.unbornCmd (.inl ⟨i, hmain⟩)) trivial h.flag (by simp)
  | startCmd =>
    rw [hmain] at hstep
    obtain rfl := Option.some.inj hstep
    have hcmd := h.unbornCmd (.inr hmain)
    refine h.main (by simp) (by simp) trivial (fun hflag => ?_) (by simp)
    rw [h.flag hflag] at hcmd
    cases hcmd
  | wait =>
    rw [hmain] at hstep
    obtain rfl := Option.some.inj hstep
    split_ifs
    · exact h
    · exact h.main (by simp) (by simp) trivial h.flag (by simp)
  | loop =>
    rw [hmain] at hstep
    obtain rfl := Option.some.inj hstep
    split_ifs with hflag
    · exact h.main (by simp) (by simp) ⟨by simp, by simp⟩ h.flag (by simp)
    · exact h.main (by simp) (by simp) trivial h.flag (by simp)
    · exact h.main (by simp) (by simp) trivial h.flag fun _ => Bool.eq_false_of_not_eq_true hflag
  | print sendRead recvRead =>
    have hsend := h.sendCount.readBy
    have hrecv := h.recvCount.readBy
    rw [hmain] at hstep hreads
    cases choice <;> cases sendRead <;> cases recvRead <;> cases hstep
    · exact h.main (by simp) (by simp) ⟨by simp, by simpa using hrecv⟩ h.flag (by simp)
    · exact h.main (by simp) (by simp) ⟨hreads.1, by simpa using hrecv⟩ h.flag (by simp)
    · exact h.main (by simp) (by simp) ⟨hreads.1 _ rfl, hreads.2 _ rfl⟩ h.flag (by simp)
    · exact h.main (by simp) (by simp) ⟨by simpa using hsend, by simp⟩ h.flag (by simp)
    · exact h.main (by simp) (by simp) ⟨by simpa using hsend, hreads.2⟩ h.flag (by simp)
    · exact h.main (by simp) (by simp) ⟨hreads.1 _ rfl, hreads.2 _ rfl⟩ h.flag (by simp)
  | clearSend sendRead recvRead =>
    rw [hmain] at hstep hreads
    obtain rfl := Option.some.inj hstep
    exact ⟨h.toInv.other rfl, h.sockets, by simp, by simp, h.sendCount.clear hreads.1, h.recvCount,
      hreads.2, h.flag, by simp⟩
  | clearRecv recvRead =>
    rw [hmain] at hstep hreads
    obtain rfl := Option.some.inj hstep
    exact ⟨h.toInv.other rfl, h.sockets, by simp, by simp, h.sendCount, h.recvCount.clear hreads,
      trivial, h.flag, by simp⟩
  | returned =>
    rw [hmain] at hstep
    cases hstep

theorem Good.cmdStep (h : Good cCount s) {buf : String} (hstep : cmdStep s buf s.cmd = some t) :
    Good cCount t := by
  cases hcmd : s.cmd with
  | reading =>
    rw [hcmd] at hstep
    obtain rfl := Option.some.inj hstep
    split_ifs with hexit
    · refine ⟨h.toInv.other rfl, h.sockets, h.unborn, fun hor => ?_, h.sendCount, h.recvCount,
        h.reads.mono le_rfl le_rfl, fun _ => rfl, fun _ => rfl⟩
      have hunborn := h.unbornCmd hor
      rw [hcmd] at hunborn
      cases hunborn
    · exact h
  | _ =>
    rw [hcmd] at hstep
    cases hstep

/-- **Every step of the program keeps what holds throughout.** -/
theorem Good.step (h : Good cCount s) {a : Act tCount}
    (hstep : step cCount login s a = some t) : Good cCount t := by
  cases a with
  | main choice => exact h.mainStep hstep
  | cmd buf =>
    rw [LoadTest.step, Option.ite_none_left_eq_some] at hstep
    exact h.cmdStep hstep.2
  | thread k i =>
    rw [LoadTest.step, Option.ite_none_left_eq_some] at hstep
    obtain ⟨l', hm⟩ := h.moves_of_step rfl hstep.2
    refine h.moves rfl (fun hunborn => ?_) hm
    rw [hunborn] at hstep
    cases hstep.2

theorem good_of_reachable (h : (loadTest tCount cCount login).Reachable s) : Good cCount s :=
  h.invariant good_init fun _ _ _ hs hstep => hs.step hstep

/-! ## The law -/

theorem sentTo_le_one (m : ℕ) : sentTo m l ≤ 1 := by
  cases l with
  | send | run | turn | count =>
    simp only [sentTo]
    split_ifs <;> omega
  | _ => exact Nat.zero_le _

/-- A round goes over the clients in order. -/
theorem sentTo_antitone {m : ℕ} (h : m ≤ n) : sentTo n l ≤ sentTo m l := by
  cases l with
  | send | run | turn | count =>
    simp only [sentTo]
    split_ifs <;> omega
  | _ => exact Nat.zero_le _

/-- What holds of the load test, with as many clients as go evenly into the threads. -/
structure Law (cCount : ℕ) (s : State tCount) : Prop where
  /-- The account of the sockets. -/
  sockets : s.process.Law
  /-- No other place of the array is written. -/
  made : ∀ n, s.process.clients n ≠ none → n < tCount * (cCount / tCount)
  /-- From the first request on, all clients are there, and `Connect` was called for each. -/
  barrier : s.requests ≠ [] →
    ∀ n < tCount * (cCount / tCount), s.process.clients n ≠ none ∧ n ∈ s.tried
  requests : ∀ n ∈ s.requests, n < tCount * (cCount / tCount)
  /-- Of two clients of a thread the first is ahead by one request at most, and the second never. -/
  turns : ∀ (k : Fin tCount) m n, Share cCount k m → Share cCount k n → m ≤ n →
    s.requests.count n ≤ s.requests.count m ∧ s.requests.count m ≤ s.requests.count n + 1
  /-- A request was counted, or its thread is about to. -/
  requested : s.requests.length = s.sendCount.total + s.threadsAt InRound
  sendCount : s.sendCount.Law
  recvCount : s.recvCount.Law
  /-- With less than 2^31 counts between two resets, no print shows more than was counted. -/
  printed : ∀ p ∈ s.sendCount.cleared ++ s.recvCount.cleared, p.2 < 2 ^ 31 →
    0 ≤ p.1.toInt ∧ p.1.toInt ≤ p.2
  /-- No thread comes behind its main loop, where the clients are closed and deleted. -/
  endless : ∀ k, ¬ Behind (s.threads k)
  /-- `main` returns only after `exit`. -/
  returned : s.main = .returned → s.cmd = .done

theorem Good.law (h : Good cCount s) : Law cCount s := by
  refine ⟨h.sockets, fun n hn => ?_, fun hreq n hn => ?_, fun n hn => ?_, fun k m n hm hn hmn => ?_,
    h.requested, h.sendCount, h.recvCount, fun p hp hlt => ?_, h.endless,
    fun hmain => h.flag (h.returned hmain)⟩
  · obtain ⟨k, hk⟩ := h.shared n hn
    exact hk.lt
  · obtain ⟨k, hk⟩ := exists_share hn
    have hsetUp := (h.requests hreq k).setUp
    exact ⟨(h.made k n hk).mpr (hsetUp.made n), (h.tried k n hk).mpr (hsetUp.tried n)⟩
  · obtain ⟨k, hk⟩ := h.sharedRequests n hn
    exact hk.lt
  · obtain ⟨r, hr⟩ := h.round k
    have hle := sentTo_antitone (l := s.threads k) hmn
    have hone := sentTo_le_one (l := s.threads k) m
    rw [hr m hm, hr n hn]
    omega
  · rcases List.mem_append.mp hp with hp | hp
    · exact h.sendCount.toInt_le hp hlt
    · exact h.recvCount.toInt_le hp hlt

/-- **The load test.**  In every run the law holds, and a step of a thread leaves the clients of
the others alone, in the array and on the wire. -/
theorem loadTest_law (h : (loadTest tCount cCount login).Reachable s) :
    Law cCount s ∧
      ∀ k i t, step cCount login s (.thread k i) = some t → ∀ n, ¬ Share cCount k n →
        t.process.clients n = s.process.clients n ∧ t.requests.count n = s.requests.count n := by
  have hgood := good_of_reachable h
  refine ⟨hgood.law, fun k i t hstep n hn => ?_⟩
  rw [step, Option.ite_none_left_eq_some] at hstep
  obtain ⟨l', hm⟩ := hgood.moves_of_step rfl hstep.2
  refine ⟨(hm.others n hn).1, ?_⟩
  rcases hm.requests with hsame | ⟨-, m, hm, hadd⟩
  · rw [hsame]
  · have hmn : m ≠ n := fun hmn => hn (hmn ▸ hm)
    rw [hadd, List.count_append, List.count_singleton, if_neg (by simpa using hmn), Nat.add_zero]

/-- Two threads and three clients, the last of which is left out: one `Connect` fails, two requests
go out over the other client, and `main` counts one of them and prints none. -/
theorem loadTest_law_exit : ∃ s : State 2,
    (loadTest 2 3 ⟨.replicate _ 0, .replicate _ 0, .replicate _ 0⟩).Reachable s ∧
    (s.requests = [0, 0] ∧ s.sendCount = ⟨0, 2, 0, [(1, 2)]⟩ ∧ s.main = .returned) ∧ Law 3 s ∧
      ∀ k i t, step 3 ⟨.replicate _ 0, .replicate _ 0, .replicate _ 0⟩ s (.thread k i) = some t →
        ∀ n, ¬ Share 3 k n →
          t.process.clients n = s.process.clients n ∧ t.requests.count n = s.requests.count n := by
  obtain ⟨s, hs, hp⟩ := Machine.exists_reachable_of_run
    (M := loadTest 2 3 ⟨.replicate _ 0, .replicate _ 0, .replicate _ 0⟩)
    [.main false, .main false, .main false, .main false,
      .thread 0 (.construct 0 5), .thread 0 .tau, .thread 0 (.connect 0 5 true),
      .thread 0 .tau, .thread 0 .tau,
      .thread 1 (.construct 0 6), .thread 1 .tau, .thread 1 (.connect 0 6 false),
      .thread 1 .tau, .thread 1 .tau,
      .thread 0 .tau, .thread 0 .tau,
      .thread 0 (.sendData 100), .thread 0 (.onRun (some none)), .thread 0 .tau, .thread 0 .tau,
      .main false, .main true, .main true, .main false, .main false,
      .thread 0 .tau, .thread 0 .tau,
      .thread 0 (.sendData 100), .thread 0 (.onRun none), .thread 0 .tau, .thread 0 .tau,
      .main false, .main false, .cmd "exit", .main false]
    (fun s => decide (s.requests = [0, 0] ∧ s.sendCount = ⟨0, 2, 0, [(1, 2)]⟩ ∧ s.main = .returned))
    (by decide +kernel)
  exact ⟨s, hs, of_decide_eq_true hp, loadTest_law hs⟩

end LoadTest
end EasyTcpServer
