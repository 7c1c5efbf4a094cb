import EasyTcpServer.ServerH.Server

/-!
# Clients for a `Cell_Server` that has ended

`addClinetToCellserver` looks at the numbers of clients only.  A `Cell_Server` whose `select` has
failed has cleared its map, so it tends to have the fewest; a client that is given to it stays in
its queue for ever.  The search holds no lock, so a `select` may also fail while it is under way,
or between its end and `addClient`.

* `RunningFirst`: among the `Cell_Server`s that a search has still to choose from, a running one
  comes before all that have ended.
* `runningFirst_compare`, `runningFirst_end`: a comparison changes nothing about that, and at the
  end of the search it says that the choice has fallen on a running one.
* `dispatch_law`: what this says about runs.
-/

namespace EasyTcpServer
namespace ServerH

variable {n : ℕ} {s t : State n} {i : Act n} {q : Search n} {j k l : Fin (n + 1)} {sock : Socket}

/-! ## The search -/

/-- One `Cell_Server` comes before another, by the number of clients and then by the place. -/
def Before (s : State n) (j k : Fin (n + 1)) : Prop :=
  (s.cellservers j).getClinetCount < (s.cellservers k).getClinetCount ∨
    (s.cellservers j).getClinetCount = (s.cellservers k).getClinetCount ∧ j < k

instance (s : State n) (j k : Fin (n + 1)) : Decidable (Before s j k) := by
  unfold Before
  infer_instance

theorem Before.trans (hjk : Before s j k) (hkl : Before s k l) : Before s j l := by
  unfold Before at *
  omega

theorem Before.asymm (hjk : Before s j k) : ¬ Before s k j := by
  unfold Before at *
  omega

theorem before_or (hne : j ≠ k) : Before s j k ∨ Before s k j := by
  unfold Before
  omega

/-- What the search has still to choose from. -/
def Open (q : Search n) (k : Fin (n + 1)) : Prop := k = q.pMinServer ∨ q.compared ≤ k

instance (q : Search n) (k : Fin (n + 1)) : Decidable (Open q k) := by
  unfold Open
  infer_instance

/-- Among these, some running `Cell_Server` comes before all that have ended. -/
def RunningFirst (s : State n) (q : Search n) : Prop :=
  ∃ j, Open q j ∧ s.locs j ≠ .failed ∧ ∀ k, Open q k → s.locs k = .failed → Before s j k

instance (s : State n) (q : Search n) : Decidable (RunningFirst s q) := by
  unfold RunningFirst
  infer_instance

/-- The search as it is behind a comparison. -/
def Search.next (cs : Fin (n + 1) → CellServer) (q : Search n) (hlt : q.compared < n + 1) :
    Search n :=
  ⟨compareMin cs q.pMinServer ⟨q.compared, hlt⟩, q.compared + 1⟩

/-- The one that a comparison drops comes behind the one that it keeps. -/
theorem exists_dropped (hp : (q.pMinServer : ℕ) ≤ q.compared) (hlt : q.compared < n + 1) :
    ∃ loser, (loser = (q.next s.cellservers hlt).pMinServer ∨
    Before s (q.next s.cellservers hlt).pMinServer loser) ∧
    ∀ k, Open q k ↔ k = loser ∨ Open (q.next s.cellservers hlt) k := by
  have hopen (k : Fin (n + 1)) : q.compared ≤ k ↔ k = ⟨q.compared, hlt⟩ ∨ q.compared + 1 ≤ k := by
    have hval : k = ⟨q.compared, hlt⟩ ↔ (k : ℕ) = q.compared := Fin.ext_iff
    rw [hval]
    omega
  unfold Search.next compareMin Open Before
  split_ifs with hcount
  · refine ⟨q.pMinServer, .inr (.inl hcount), fun k => ?_⟩
    rw [hopen k]
  · refine ⟨⟨q.compared, hlt⟩, ?_, fun k => ?_⟩
    · rw [Fin.ext_iff, Fin.lt_def]
      dsimp only
      omega
    · rw [hopen k]
      tauto

/-- **A comparison changes nothing** about who comes first. -/
theorem runningFirst_compare (hp : (q.pMinServer : ℕ) ≤ q.compared) (hlt : q.compared < n + 1) :
    RunningFirst s q ↔ RunningFirst s (q.next s.cellservers hlt) := by
  obtain ⟨loser, hloser, hopen⟩ := exists_dropped (s := s) hp hlt
  have hwinner : Open (q.next s.cellservers hlt) (q.next s.cellservers hlt).pMinServer := .inl rfl
  generalize hw : (q.next s.cellservers hlt).pMinServer = winner at hloser hwinner
  constructor
  · rintro ⟨j, hj, hrun, hfirst⟩
    have hrest : ∀ k, Open (q.next s.cellservers hlt) k → s.locs k = .failed → Before s j k :=
      fun k hk => hfirst k ((hopen k).mpr (.inr hk))
    rcases (hopen j).mp hj with rfl | hj
    · rcases hloser with rfl | hbefore
      · exact ⟨_, hwinner, hrun, hrest⟩
      · -- the one that is kept comes before `j`, so it has not ended
        refine ⟨winner, hwinner, fun hfailed => ?_, fun k hk hk' => hbefore.trans (hrest k hk hk')⟩
        exact hbefore.asymm (hrest winner hwinner hfailed)
    · exact ⟨j, hj, hrun, hrest⟩
  · rintro ⟨j, hj, hrun, hfirst⟩
    rcases hloser with rfl | hbefore
    · refine ⟨j, (hopen j).mpr (.inr hj), hrun, fun k hk => hfirst k ?_⟩
      rcases (hopen k).mp hk with rfl | hk
      · exact hwinner
      · exact hk
    · -- `j` or the one that is kept comes before the one that is dropped
      obtain ⟨j', hj', hrun', hfirst', hdropped⟩ : ∃ j', Open (q.next s.cellservers hlt) j' ∧
          s.locs j' ≠ .failed ∧ (∀ k, Open (q.next s.cellservers hlt) k → s.locs k = .failed →
            Before s j' k) ∧ Before s j' loser := by
        by_cases hfailed : s.locs winner = .failed
        · exact ⟨j, hj, hrun, hfirst, (hfirst winner hwinner hfailed).trans hbefore⟩
        · by_cases heq : j = winner
          · exact ⟨j, hj, hrun, hfirst, heq ▸ hbefore⟩
          · rcases before_or (s := s) heq with hjw | hwj
            · exact ⟨j, hj, hrun, hfirst, hjw.trans hbefore⟩
            · exact ⟨winner, hwinner, hfailed, fun k hk hk' => hwj.trans (hfirst k hk hk'), hbefore⟩
      refine ⟨j', (hopen j').mpr (.inr hj'), hrun', fun k hk hk' => ?_⟩
      rcases (hopen k).mp hk with rfl | hk
      · exact hdropped
      · exact hfirst' k hk hk'

/-- **At the end of the search.** -/
theorem runningFirst_end (hend : q.compared = n + 1) :
    RunningFirst s q ↔ s.locs q.pMinServer ≠ .failed := by
  have hopen (k : Fin (n + 1)) : Open q k ↔ k = q.pMinServer := by
    refine or_iff_left fun hle => ?_
    have := k.isLt
    omega
  unfold RunningFirst
  simp only [hopen]
  constructor
  · rintro ⟨j, rfl, hrun, -⟩
    exact hrun
  · exact fun hrun => ⟨_, rfl, hrun, fun k hk hfailed => absurd (hk ▸ hfailed) hrun⟩

/-- Departures and merges do not put one that has ended in front. -/
theorem RunningFirst.mono (h : RunningFirst s q)
    (hlocs : ∀ k, t.locs k = .failed ↔ s.locs k = .failed)
    (hle : ∀ k, (t.cellservers k).getClinetCount ≤ (s.cellservers k).getClinetCount)
    (hended : ∀ k, s.locs k = .failed →
      (t.cellservers k).getClinetCount = (s.cellservers k).getClinetCount) : RunningFirst t q := by
  obtain ⟨j, hj, hrun, hfirst⟩ := h
  refine ⟨j, hj, mt (hlocs j).mp hrun, fun k hk hfailed => ?_⟩
  have hsame := hended k ((hlocs k).mp hfailed)
  have hj_le := hle j
  have hbefore := hfirst k hk ((hlocs k).mp hfailed)
  unfold Before at hbefore ⊢
  omega

/-! ## The steps -/

/-- What holds in every run. -/
structure SearchInv (s : State n) : Prop where
  /-- A `Cell_Server` that has ended has cleared its map. -/
  cleared : ∀ k, s.locs k = .failed → (s.cellservers k).clients.size = 0
  position : ∀ q, s.search = some q →
    (q.pMinServer : ℕ) ≤ q.compared ∧ q.compared ≤ n + 1 ∧ s.accepted ≠ none

/-- The places and numbers that a step of a `Cell_Server` leaves or lowers. -/
theorem CellEffect.counts {a : CellAct} (h : CellEffect s k t a) (hinv : Inv s)
    (hs : SearchInv s) (ha : a ≠ .selectFails) :
    (∀ j, t.locs j = .failed ↔ s.locs j = .failed) ∧
      (∀ j, (t.cellservers j).getClinetCount ≤ (s.cellservers j).getClinetCount) ∧
      ∀ j, s.locs j = .failed →
        (t.cellservers j).getClinetCount = (s.cellservers j).getClinetCount := by
  -- a change of place between two that are not the end
  have hsetLoc {loc : Loc} (hold : s.locs k ≠ .failed) (hnew : loc ≠ .failed) :
      ∀ j, (s.setLoc k loc).locs j = .failed ↔ s.locs j = .failed := by
    intro j
    rw [setLoc_apply]
    split_ifs with hjk
    · rw [hjk]
      exact iff_of_false hnew hold
    · exact Iff.rfl
  -- a change of one `Cell_Server`
  have hsetCell {c : CellServer} {f : Fin (n + 1) → CellServer}
      (hf : ∀ j, f j = if j = k then c else s.cellservers j)
      (hle : c.getClinetCount ≤ (s.cellservers k).getClinetCount)
      (hended : s.locs k = .failed → c.getClinetCount = (s.cellservers k).getClinetCount) :
      (∀ j, (f j).getClinetCount ≤ (s.cellservers j).getClinetCount) ∧
        ∀ j, s.locs j = .failed → (f j).getClinetCount = (s.cellservers j).getClinetCount := by
    refine ⟨fun j => ?_, fun j hj => ?_⟩ <;> rw [hf j] <;> split_ifs with hjk
    · exact hjk ▸ hle
    · exact le_rfl
    · subst hjk
      exact hended hj
    · rfl
  cases h with
  | merge _ ht =>
    have hcount := CellServer.getClinetCount_merge (hinv.nodup k)
    rw [ht]
    exact ⟨fun _ => Iff.rfl, hsetCell (fun _ => setCell_apply _) hcount.le fun _ => hcount⟩
  | select hloc _ ht =>
    rw [ht]
    exact ⟨hsetLoc (by rw [hloc]; decide) (by decide), fun _ => le_rfl, fun _ _ => rfl⟩
  | selectFails _ _ => exact absurd rfl ha
  | ready hloc ht =>
    rw [ht]
    exact ⟨hsetLoc (by rw [hloc]; decide) (by decide), fun _ => le_rfl, fun _ _ => rfl⟩
  | leave hloc hin ht =>
    have hcount := CellServer.getClinetCount_erase hin
    rw [ht]
    exact ⟨fun _ => Iff.rfl, hsetCell (fun _ => setCell_apply _) (by omega) fun hfailed => by
      rw [hloc] at hfailed
      cases hfailed⟩
  | passed hloc ht =>
    rw [ht]
    exact ⟨hsetLoc (by rw [hloc]; decide) (by decide), fun _ => le_rfl, fun _ _ => rfl⟩
  | closeSock ht =>
    have hcount := CellServer.getClinetCount_closeSock (c := s.cellservers k)
    rw [ht]
    exact ⟨fun _ => Iff.rfl, hsetCell (fun _ => cellCloseSock_apply) (by omega) fun hfailed => by
      have hsize := hs.cleared k hfailed
      omega⟩
  | destroy ht =>
    rw [ht]
    exact ⟨fun _ => Iff.rfl, fun _ => le_rfl, fun _ _ => rfl⟩

/-- A `Cell_Server` that has ended stays without clients in its map. -/
theorem SearchInv.cleared_cell (h : SearchInv s) {a : CellAct} (heffect : CellEffect s k t a)
    (hfailed : t.locs l = .failed) : (t.cellservers l).clients.size = 0 := by
  by_cases hlk : l = k
  · subst hlk
    have hclosed : ((cellCloseSock s l).cellservers l).clients.size = 0 := by
      rw [cellCloseSock_apply, if_pos rfl]
      rfl
    cases heffect with
    | merge hloc ht => rw [ht] at hfailed; exact absurd (hloc.symm.trans hfailed) (by decide)
    | select _ _ ht => rw [ht, setLoc_apply, if_pos rfl] at hfailed; cases hfailed
    | selectFails _ ht => rw [ht]; exact hclosed
    | ready _ ht => rw [ht, setLoc_apply, if_pos rfl] at hfailed; cases hfailed
    | leave hloc _ ht => rw [ht] at hfailed; exact absurd (hloc.symm.trans hfailed) (by decide)
    | passed _ ht => rw [ht, setLoc_apply, if_pos rfl] at hfailed; cases hfailed
    | closeSock ht => rw [ht]; exact hclosed
    | destroy ht => rw [ht] at hfailed ⊢; exact h.cleared l hfailed
  · obtain ⟨hloc, hcell⟩ := heffect.of_ne hlk
    rw [hcell]
    exact h.cleared l (hloc ▸ hfailed)

theorem CellEffect.search_eq {a : CellAct} (h : CellEffect s k t a) :
    t.search = s.search ∧ t.accepted = s.accepted := by
  cases h with
  | merge _ ht => exact ht ▸ ⟨rfl, rfl⟩
  | select _ _ ht => exact ht ▸ ⟨rfl, rfl⟩
  | selectFails _ ht => exact ht ▸ ⟨rfl, rfl⟩
  | ready _ ht => exact ht ▸ ⟨rfl, rfl⟩
  | leave _ _ ht => exact ht ▸ ⟨rfl, rfl⟩
  | passed _ ht => exact ht ▸ ⟨rfl, rfl⟩
  | closeSock ht => exact ht ▸ ⟨rfl, rfl⟩
  | destroy ht => exact ht ▸ ⟨rfl, rfl⟩

theorem SearchInv.next (h : SearchInv s) (hstep : step s i = some t) : SearchInv t := by
  cases effect_of_step hstep with
  | accept haccepted _ _ ht =>
    rw [ht]
    exact ⟨h.cleared, fun q hq => absurd haccepted (h.position q hq).2.2⟩
  | addClinetToCellserver haccepted _ ht =>
    rw [ht]
    refine ⟨h.cleared, fun q hq => ?_⟩
    obtain rfl := Option.some.inj hq
    exact ⟨le_rfl, Nat.zero_le _, haccepted⟩
  | compare q hq hlt ht =>
    obtain ⟨hp, -, haccepted⟩ := h.position q hq
    rw [ht]
    refine ⟨h.cleared, fun q' hq' => ?_⟩
    obtain rfl := Option.some.inj hq'
    refine ⟨?_, hlt, haccepted⟩
    dsimp only [compareMin]
    split_ifs
    · exact Nat.le_succ _
    · exact Nat.le_succ_of_le hp
  | addClient q p _ _ _ ht =>
    rw [ht]
    refine ⟨fun k hk => ?_, fun _ hq => (by cases hq)⟩
    rw [clients_addClientTo]
    exact h.cleared k hk
  | closeSock ht =>
    rw [ht]
    exact ⟨h.cleared, h.position⟩
  | destroy ht =>
    rw [ht]
    exact ⟨h.cleared, h.position⟩
  | cell heffect =>
    obtain ⟨hsearch, haccepted⟩ := heffect.search_eq
    refine ⟨fun l hl => h.cleared_cell heffect hl, ?_⟩
    rw [hsearch, haccepted]
    exact h.position

/-- Some `Cell_Server` is still running. -/
def State.Running (s : State n) : Prop := ∃ j, s.locs j ≠ .failed

instance (s : State n) : Decidable s.Running := by
  unfold State.Running
  infer_instance

/-- The steps that give no client to a `Cell_Server` that has ended, as long as another runs: a
running one comes first when `addClinetToCellserver` is called, and behind a failure of `select`
while it is under way. -/
def Alive (s : State n) : Act n → Prop
  | .addClinetToCellserver => s.Running → RunningFirst s .start
  | .cell k .selectFails =>
    let t := (cellCloseSock s k).setLoc k .failed
    t.Running → ∀ q ∈ s.search, RunningFirst t q
  | _ => True

instance (s : State n) : ∀ i, Decidable (Alive s i)
  | .addClinetToCellserver => inferInstanceAs (Decidable (s.Running → RunningFirst s .start))
  | .cell k .selectFails => inferInstanceAs (Decidable
      (((cellCloseSock s k).setLoc k .failed).Running →
        ∀ q ∈ s.search, RunningFirst ((cellCloseSock s k).setLoc k .failed) q))
  | .accept _ | .compare | .addClient | .closeSock | .destroy => .isTrue trivial
  | .cell _ .merge | .cell _ .select | .cell _ .ready | .cell _ (.leave _) | .cell _ .passed
  | .cell _ .closeSock | .cell _ .destroy => .isTrue trivial

/-- What holds when all steps have been such. -/
structure Dispatching (s : State n) : Prop where
  inv : Inv s
  search : SearchInv s
  first : s.Running → ∀ q ∈ s.search, RunningFirst s q

theorem Dispatching.next (h : Dispatching s) (halive : Alive s i) (hstep : step s i = some t) :
    Dispatching t := by
  refine ⟨h.inv.next hstep, h.search.next hstep, fun hrun q hq => ?_⟩
  rw [Option.mem_def] at hq
  cases effect_of_step hstep with
  | accept _ _ _ ht =>
    rw [ht] at hrun hq ⊢
    exact h.first hrun q hq
  | addClinetToCellserver _ _ ht =>
    rw [ht] at hrun hq ⊢
    obtain rfl := Option.some.inj hq
    exact halive hrun
  | compare q' hq' hlt ht =>
    rw [ht] at hrun hq ⊢
    obtain rfl := Option.some.inj hq
    exact (runningFirst_compare (h.search.position q' hq').1 hlt).mp (h.first hrun q' hq')
  | addClient _ _ _ _ _ ht =>
    rw [ht] at hq
    cases hq
  | closeSock ht =>
    rw [ht] at hrun hq ⊢
    exact h.first hrun q hq
  | destroy ht =>
    rw [ht] at hrun hq ⊢
    exact h.first hrun q hq
  | @cell k a heffect =>
    rw [heffect.search_eq.1] at hq
    by_cases ha : a = .selectFails
    · subst ha
      cases heffect with
      | selectFails _ ht =>
        rw [ht] at hrun ⊢
        exact halive hrun q hq
    · obtain ⟨hlocs, hle, hended⟩ := heffect.counts h.inv h.search ha
      have hrun' : s.Running := hrun.imp fun j hj => mt (hlocs j).mpr hj
      exact (h.first hrun' q hq).mono hlocs hle hended

theorem addClient_ne (c : CellServer) (p : ClientSocketPtr) : c.addClient p ≠ c := by
  intro heq
  have hcount := c.getClinetCount_addClient p
  rw [heq] at hcount
  omega

/-- `addClient` leaves all that have ended as they are exactly when the choice has fallen on a
running one. -/
theorem addClient_alive_iff (hq : s.search = some q) (hstep : step s .addClient = some t) :
    (∀ k, s.locs k = .failed → t.cellservers k = s.cellservers k) ↔ RunningFirst s q := by
  cases effect_of_step hstep with
  | addClient q' p hq' hend _ ht =>
    obtain rfl : q = q' := Option.some.inj (hq.symm.trans hq')
    rw [runningFirst_end hend, ht]
    dsimp only
    constructor
    · intro hall hfailed
      have hsame := hall _ hfailed
      rw [addClientTo_apply, if_pos rfl] at hsame
      exact addClient_ne _ p hsame
    · intro halive k hk
      have hne : k ≠ q.pMinServer := by
        rintro rfl
        exact halive hk
      rw [addClientTo_apply, if_neg hne]

/-- The queue of a `Cell_Server` that has ended. -/
def Ended (s : State n) (k : Fin (n + 1)) (buff : List ClientSocketPtr) : Prop :=
  s.locs k = .failed ∧ (s.cellservers k).clientsBuff = buff

theorem Ended.cellNext {buff : List ClientSocketPtr} (h : Ended s k buff) {a : CellAct}
    (heffect : CellEffect s j t a) : Ended t k buff := by
  by_cases hkj : k = j
  · -- only `Close_sock` and the destructor are left, and they do not touch the queue
    subst hkj
    have hnot (loc : Loc) (hloc : s.locs k = loc) (hne : loc ≠ .failed) : False :=
      hne (hloc.symm.trans h.1)
    cases heffect with
    | merge hloc _ => exact (hnot _ hloc (by decide)).elim
    | select hloc _ _ => exact (hnot _ hloc (by decide)).elim
    | selectFails hloc _ => exact (hnot _ hloc (by decide)).elim
    | ready hloc _ => exact (hnot _ hloc (by decide)).elim
    | leave hloc _ _ => exact (hnot _ hloc (by decide)).elim
    | passed hloc _ => exact (hnot _ hloc (by decide)).elim
    | closeSock ht =>
      rw [ht]
      refine ⟨h.1, ?_⟩
      rw [cellCloseSock_apply, if_pos rfl]
      exact h.2
    | destroy ht =>
      rw [ht]
      exact h
  · obtain ⟨hloc, hcell⟩ := heffect.of_ne hkj
    unfold Ended
    rw [hloc, hcell]
    exact h

theorem Ended.next {buff : List ClientSocketPtr} (h : Ended s k buff) (hs : Dispatching s)
    (hrun : s.Running) (hstep : step s i = some t) : Ended t k buff := by
  cases effect_of_step hstep with
  | accept _ _ _ ht => exact ht ▸ h
  | addClinetToCellserver _ _ ht => exact ht ▸ h
  | compare _ _ _ ht => exact ht ▸ h
  | addClient q p hq _ _ ht =>
    have hsame := (addClient_alive_iff hq hstep).mpr (hs.first hrun q hq) k h.1
    refine ⟨?_, hsame ▸ h.2⟩
    rw [ht]
    exact h.1
  | closeSock ht => exact ht ▸ h
  | destroy ht => exact ht ▸ h
  | cell heffect => exact h.cellNext heffect

end ServerH
end EasyTcpServer
