import EasyTcpServer.Lib.FramedReceiver
import EasyTcpServer.Lib.WholeFrames

/-!
# Moving the remainder over a frame

A receiver that keeps its buffer at the front of a block moves what is behind a frame to the
front when the frame has been handed on.  The cells it reads from and those it writes to do not
overlap exactly when the remainder is not longer than the frame.  The machine of
`Lib.FramedReceiver` does not see this: it moves the remainder whatever its length.

## What is provided

* `Fits`: the remainder behind the first frame is not longer than it.
* `Covers`, `CoversRead`: of the frames that one read completes, none is shorter than all that is
  behind it in the buffer.  This is a condition on the stream and on where the read cuts it.
* `fits_iff`: after a read the loop meets only frames that fit exactly when the read meets the
  condition.
* `Implementation.fits_of_reachWithin`, `Implementation.fits_iff`: the same for a program that
  implements the framed receiver, in whole runs and in a single call.
-/

namespace EasyTcpServer

variable {α : Type*}

namespace Format

/-- None of the frames is shorter than the frames behind it and the remainder together. -/
def Covers : List (List α) → List α → Prop
  | [], _ => True
  | m :: ms, rest => ms.flatten.length + rest.length ≤ m.length ∧ Covers ms rest

instance : (ms : List (List α)) → (rest : List α) → Decidable (Covers ms rest)
  | [], _ => isTrue trivial
  | m :: ms, rest =>
    have := instDecidableCovers ms rest
    inferInstanceAs (Decidable (ms.flatten.length + rest.length ≤ m.length ∧ Covers ms rest))

variable (F : Format α)

/-- What stands behind the first frame is not longer than it. -/
def Fits (xs : List α) : Prop := (xs.drop (F.size xs)).length ≤ F.size xs

/-- The frames that are completed when `chunk` comes behind what was received are not shorter
than what is behind them. -/
def CoversRead (received chunk : List α) : Prop :=
  Covers (F.parse ((F.parse received).2 ++ chunk)).1 (F.parse ((F.parse received).2 ++ chunk)).2

instance (received chunk : List α) : Decidable (F.CoversRead received chunk) := by
  unfold CoversRead
  infer_instance

variable {F} {P : ℤ → Prop} {xs ys zs : List α} {ms : List (List α)}

/-- Frames and remainder are the stream. -/
theorem Cuts.flatten_append (h : F.Cuts xs ms ys) : ms.flatten ++ ys = xs := by
  induction h with
  | nil => rfl
  | cons _ _ _ ih => rw [List.flatten_cons, List.append_assoc, ih, List.take_append_drop]

/-- What is incomplete cannot be cut. -/
theorem Cuts.eq_of_not_complete (h : F.Cuts xs ms ys) (hxs : ¬ F.Complete xs) : ys = xs := by
  cases h with
  | nil => rfl
  | cons hcomplete => exact absurd hcomplete hxs

/-- The parser's frames are cuts. -/
theorem cuts_parse (xs : List α) : F.Cuts xs (F.parse xs).1 (F.parse xs).2 := by
  induction xs using parse.induct F with
  | case1 xs h ih =>
    rw [parse_of_complete h.1 h.2]
    exact .cons h.1 (le_of_lt h.2) ih
  | case2 xs h =>
    rw [parse, dif_neg h]
    exact .nil xs

/-- What the parser leaves, it leaves again. -/
theorem parse_remainder (xs : List α) : F.parse (F.parse xs).2 = ([], (F.parse xs).2) := by
  induction xs using parse.induct F with
  | case1 xs h ih =>
    rw [parse_of_complete h.1 h.2]
    exact ih
  | case2 xs h =>
    have hstop : F.parse xs = ([], xs) := by rw [parse, dif_neg h]
    rw [hstop, hstop]

/-- A read of nothing completes nothing. -/
theorem coversRead_nil (received : List α) : F.CoversRead received [] := by
  rw [CoversRead, List.append_nil, parse_remainder]
  exact trivial

/-- A first read of whole frames. -/
theorem coversRead_flatten (hheader : 0 < F.headerSize) (hms : ∀ m ∈ ms, F.Frame m) :
    F.CoversRead [] ms.flatten ↔ Covers ms [] := by
  have hnil : F.parse [] = ([], []) := parse_flatten hheader (List.forall_mem_nil _)
  rw [CoversRead, hnil, List.nil_append, parse_flatten hheader hms]

/-- The headers met in the beginning of a stream are met in the stream. -/
theorem HeadersSatisfy.of_append (h : F.HeadersSatisfy P (xs ++ ys)) : F.HeadersSatisfy P xs := by
  rintro zs ⟨⟨ns, hns⟩, hlen⟩
  rw [← F.declared_append zs ys hlen]
  refine h (zs ++ ys) ⟨⟨ns, hns.append_right ys⟩, ?_⟩
  rw [List.length_append]
  exact Nat.le_add_right_of_le hlen

/-- **Every frame that the parser meets fits exactly when the frames cover what is behind
them.** -/
theorem covers_parse_iff (hpos : F.HeadersSatisfy (0 < ·) xs) :
    Covers (F.parse xs).1 (F.parse xs).2 ↔
      ∀ ns ys, F.Cuts xs ns ys → F.Complete ys → F.Fits ys := by
  induction xs using parse.induct F with
  | case1 xs h ih =>
    obtain ⟨hcomplete, hdecl⟩ := h
    have hcut : F.Cuts xs [xs.take (F.size xs)] (xs.drop (F.size xs)) :=
      .cons hcomplete (le_of_lt hdecl) (.nil _)
    rw [parse_of_complete hcomplete hdecl, Covers, ih (hpos.of_cuts hcut)]
    -- the remainder behind the first frame is what is parsed next
    have hflat := congrArg List.length (cuts_parse (F := F) (xs.drop (F.size xs))).flatten_append
    rw [List.length_append] at hflat
    rw [hflat, List.length_take, Nat.min_eq_left hcomplete.size_le]
    constructor
    · rintro ⟨hfits, hlater⟩ ns ys hcuts hys
      cases hcuts with
      | nil => exact hfits
      | cons _ _ hcuts => exact hlater _ _ hcuts hys
    · intro hall
      refine ⟨hall [] xs (.nil xs) hcomplete, fun _ ys hcuts hys => ?_⟩
      exact hall _ _ (.cons hcomplete (le_of_lt hdecl) hcuts) hys
  | case2 xs h =>
    have hincomplete : ¬ F.Complete xs := fun hcomplete =>
      h ⟨hcomplete, hpos.declared hcomplete.1⟩
    rw [parse_of_not_complete hincomplete]
    refine iff_of_true trivial fun _ ys hcuts hys => ?_
    rw [hcuts.eq_of_not_complete hincomplete] at hys
    exact absurd hys hincomplete

/-- Covering frames cover when the first is gone. -/
theorem covers_of_cuts (hpos : F.HeadersSatisfy (0 < ·) xs)
    (h : Covers (F.parse xs).1 (F.parse xs).2) (hcuts : F.Cuts xs ms ys) :
    Covers (F.parse ys).1 (F.parse ys).2 :=
  (covers_parse_iff (hpos.of_cuts hcuts)).mpr fun _ zs hcuts' hzs =>
    (covers_parse_iff hpos).mp h _ zs (hcuts.trans hcuts') hzs

end Format

namespace FramedReceiver

variable {F : Format α} {N : ℕ} {s t : State α}

/-- When the next turn hands a frame on, the remainder fits in its place. -/
def State.Fits (F : Format α) (s : State α) : Prop :=
  s.phase = .extract → F.Complete s.pending → F.Fits s.pending

/-- An arrival brings frames that cover what is behind them. -/
def Covered (F : Format α) (s : State α) : Act α → Prop
  | .arrive chunk => F.CoversRead s.received chunk
  | _ => True

/-- **The loop meets only frames that fit exactly when those in its buffer cover what is behind
them.** -/
theorem fits_iterate_iff (hphase : s.phase = .extract)
    (hpos : F.HeadersSatisfy (0 < ·) s.pending) :
    (∀ k t, (framedReceiver F N).iterate .turn k s = some t → t.Fits F) ↔
      Format.Covers (F.parse s.pending).1 (F.parse s.pending).2 := by
  rw [Format.covers_parse_iff hpos]
  constructor
  · intro hfits ns ys hcuts hys
    exact hfits _ _ (exists_iterate_cut hcuts hphase rfl) hphase hys
  · intro hall k t ht _ hcomplete
    obtain ⟨ns, hcuts⟩ := exists_cuts_of_iterate ht
    exact hall ns _ hcuts hcomplete

/-- What has arrived is what the parser of all received goes on with. -/
theorem pending_of_arrive (h : Consistent F N s) (hidle : s.phase = .idle)
    (hpos : F.HeadersSatisfy (0 < ·) s.received) : s.pending = (F.parse s.received).2 := by
  rw [h.deliveries_eq_parse hpos (by rw [hidle]; exact nofun)]

/-- **One call**: from the read on, the loop meets only frames that fit exactly when the read
brings covering frames. -/
theorem fits_iff {i : Act α} (hi : i ≠ .turn) (hs : Consistent F N s)
    (hstep : (framedReceiver F N).step s i = some t) (hpos : F.HeadersSatisfy (0 < ·) t.received) :
    (∀ k u, (framedReceiver F N).iterate .turn k t = some u → u.Fits F) ↔ Covered F s i := by
  cases i with
  | turn => exact absurd rfl hi
  | arrive chunk =>
    have ht := hs.step hstep
    obtain ⟨hidle, -, rfl⟩ := step_arrive_cases hstep
    rw [fits_iterate_iff rfl (hpos.of_cuts ht.cuts), Covered, Format.CoversRead,
      ← pending_of_arrive hs hidle hpos.of_append]
  | quit =>
    obtain ⟨-, rfl⟩ := step_quit_cases hstep
    refine iff_of_true (fun k u hu => ?_) trivial
    cases k with
    | zero =>
      obtain rfl := Option.some.inj hu
      exact nofun
    | succ k => simp [Machine.iterate_succ, framedReceiver] at hu

/-- In a run of covering reads the frames in the buffer of the loop cover what is behind them. -/
theorem covers_of_reachWithin (hheader : 0 < F.headerSize)
    (h : (framedReceiver F N).ReachWithin (Covered F) s)
    (hpos : F.HeadersSatisfy (0 < ·) s.received) (hphase : s.phase = .extract) :
    Format.Covers (F.parse s.pending).1 (F.parse s.pending).2 := by
  induction h with
  | init => cases hphase
  | @step s t i hs hok hstep ih =>
    have hconsistent := Reachable.consistent hheader hs.reachable
    cases i with
    | arrive chunk =>
      obtain ⟨hidle, -, rfl⟩ := step_arrive_cases hstep
      rw [Covered, Format.CoversRead, ← pending_of_arrive hconsistent hidle hpos.of_append] at hok
      exact hok
    | quit =>
      obtain ⟨-, rfl⟩ := step_quit_cases hstep
      cases hphase
    | turn =>
      obtain ⟨hextract, ⟨hcomplete, hnonneg, rfl⟩ | ⟨-, -, rfl⟩ | ⟨-, rfl⟩⟩ :=
        step_turn_cases hstep
      · exact Format.covers_of_cuts (hpos.of_cuts hconsistent.cuts) (ih hpos hextract)
          (.cons hcomplete hnonneg (.nil _))
      · cases hphase
      · cases hphase

namespace Implementation

variable {σ ι : Type*} {M : Machine σ ι} {s t : σ} (I : Implementation M F N)

/-- **Whole runs.**  In a run of covering reads every frame handed on fits. -/
theorem fits_of_reachWithin (hheader : 0 < F.headerSize)
    (h : M.ReachWithin (fun s i => Covered F (I.abs s) (I.act i)) s)
    (hpos : F.HeadersSatisfy (0 < ·) (I.abs s).received) : (I.abs s).Fits F := by
  intro hphase hcomplete
  have hreach := I.toRefinement.reachWithin (fun _ _ _ hok => hok) h
  have hpending := hpos.of_cuts (I.consistent hheader h.reachable).cuts
  exact (Format.covers_parse_iff hpending).mp
    (covers_of_reachWithin hheader hreach hpos hphase) [] _ (.nil _) hcomplete

/-- **One call.** -/
theorem fits_iff {i : ι} (hheader : 0 < F.headerSize) (hi : I.act i ≠ .turn) (hs : M.Reachable s)
    (hstep : M.step s i = some t) (hpos : F.HeadersSatisfy (0 < ·) (I.abs t).received) :
    (∀ k u, M.iterate I.turn k t = some u → (I.abs u).Fits F) ↔
      Covered F (I.abs s) (I.act i) := by
  obtain ⟨hgood, habs⟩ := I.step (I.toRefinement.reachable hs).1 hstep
  rw [← FramedReceiver.fits_iff hi (I.consistent hheader hs) habs hpos]
  constructor
  · intro hfits k u hu
    obtain ⟨v, hv, rfl⟩ := I.exists_iterate hgood hu
    exact hfits k v hv
  · intro hfits k u hu
    exact hfits k _ (I.iterate_eq_some hgood hu)

end Implementation

end FramedReceiver
end EasyTcpServer
