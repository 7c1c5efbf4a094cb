import EasyTcpServer.Lib.Framing

/-!
# Streams of whole frames

What a sender that keeps to the format puts on the wire: frames, one behind the other, each
exactly as long as it declares.  A receiver sees a prefix of such a stream, cut off anywhere.

## What is provided

* `Frame`: a single frame.
* `parse_flatten_append`: the reference parser hands on whole frames in front of a stream one by
  one, and goes on behind them.
* `exists_prefix_of_cuts`: what any cuts leave of a prefix of a stream of frames is again a
  prefix of a stream of the same frames.
* `exists_rest_of_cuts`: any cuts of a stream of frames are its first frames, and leave the
  others.
* `headersSatisfy_of_prefix`: the headers met in such a prefix declare lengths of its frames.
* `WellFormed`: being such a prefix.
-/

namespace EasyTcpServer
namespace Format

variable {α : Type*} (F : Format α)

/-- A header, and exactly as many symbols as it declares. -/
structure Frame (m : List α) : Prop where
  header : F.headerSize ≤ m.length
  declared : F.declared m = m.length

variable {F} {m xs ys : List α} {ms ns : List (List α)}

/-! ## One frame -/

theorem Frame.size (h : F.Frame m) : F.size m = m.length := by
  unfold Format.size
  rw [h.declared, Int.toNat_natCast]

theorem Frame.complete (h : F.Frame m) : F.Complete m := ⟨h.header, Int.le_of_eq h.declared⟩

theorem Frame.size_append (h : F.Frame m) (xs : List α) : F.size (m ++ xs) = m.length := by
  rw [Format.size_append xs h.header, h.size]

theorem Frame.declared_append (h : F.Frame m) (xs : List α) :
    F.declared (m ++ xs) = m.length := by
  rw [F.declared_append m xs h.header, h.declared]

/-! ## Streams of frames -/

/-- **The reference parser hands on the frames in front** and goes on behind them. -/
theorem parse_flatten_append (hheader : 0 < F.headerSize) (hms : ∀ m ∈ ms, F.Frame m)
    (xs : List α) :
    F.parse (ms.flatten ++ xs) = (ms ++ (F.parse xs).1, (F.parse xs).2) := by
  induction ms with
  | nil => rfl
  | cons m ms ih =>
    obtain ⟨hm, hrest⟩ := List.forall_mem_cons.mp hms
    have hpos : 0 < F.declared (m ++ (ms.flatten ++ xs)) := by
      rw [hm.declared_append]
      have := hm.header
      omega
    rw [List.flatten_cons, List.append_assoc,
      parse_of_complete (hm.complete.append_right _) hpos, hm.size_append, List.take_left,
      List.drop_left, ih hrest, List.cons_append]

/-- A stream of whole frames parses into them. -/
theorem parse_flatten (hheader : 0 < F.headerSize) (hms : ∀ m ∈ ms, F.Frame m) :
    F.parse ms.flatten = (ms, []) := by
  have hnil : ¬ F.Complete [] := by
    intro hcomplete
    have hlen : F.headerSize ≤ 0 := hcomplete.1
    omega
  have hparse := parse_flatten_append hheader hms []
  rwa [List.append_nil, parse_of_not_complete hnil, List.append_nil] at hparse

/-- **Cuts of a prefix of a stream of frames** leave a prefix of a stream of some of the same
frames. -/
theorem exists_prefix_of_cuts (hheader : 0 < F.headerSize) (hms : ∀ m ∈ ms, F.Frame m)
    (hxs : xs <+: ms.flatten) (hcuts : F.Cuts xs ns ys) :
    ∃ ks : List (List α), (∀ k ∈ ks, k ∈ ms) ∧ ys <+: ks.flatten := by
  induction hcuts generalizing ms with
  | nil => exact ⟨ms, fun _ hk => hk, hxs⟩
  | @cons xs ys ns hcomplete _ _ ih =>
    cases ms with
    | nil =>
      -- nothing is complete in an empty stream
      have hlen : xs.length ≤ 0 := hxs.length_le
      have := hcomplete.1
      omega
    | cons m ms =>
      obtain ⟨hm, hrest⟩ := List.forall_mem_cons.mp hms
      obtain ⟨zs, hzs⟩ := hxs
      rw [List.flatten_cons] at hzs
      -- the length read at the front is that of the first frame
      have hsize : F.size xs = m.length := by
        rw [← Format.size_append zs hcomplete.1, hzs, hm.size_append]
      have hdrop : xs.drop (F.size xs) <+: ms.flatten := by
        refine ⟨zs, ?_⟩
        rw [← List.drop_append_of_le_length hcomplete.size_le, hzs, hsize, List.drop_left]
      obtain ⟨ks, hks, hys⟩ := ih hrest hdrop
      exact ⟨ks, fun k hk => List.mem_cons_of_mem _ (hks k hk), hys⟩

/-- **Cuts of a stream of frames** are its first frames, and leave the others. -/
theorem exists_rest_of_cuts (hheader : 0 < F.headerSize) (hms : ∀ m ∈ ms, F.Frame m)
    (hcuts : F.Cuts ms.flatten ns ys) :
    ∃ rest : List (List α), ms = ns ++ rest ∧ ys = rest.flatten := by
  generalize hxs : ms.flatten = xs at hcuts
  induction hcuts generalizing ms with
  | nil => exact ⟨ms, rfl, hxs.symm⟩
  | @cons xs ys ns hcomplete _ _ ih =>
    subst hxs
    cases ms with
    | nil =>
      have hlen : F.headerSize ≤ 0 := hcomplete.1
      omega
    | cons m ms =>
      obtain ⟨hm, hrest⟩ := List.forall_mem_cons.mp hms
      rw [List.flatten_cons, hm.size_append, List.drop_left] at ih
      obtain ⟨rest, rfl, hys⟩ := ih hrest rfl
      refine ⟨rest, ?_, hys⟩
      rw [List.flatten_cons, hm.size_append, List.take_left, List.cons_append]

/-- **The headers met in a prefix of a stream of frames** declare lengths of its frames. -/
theorem headersSatisfy_of_prefix {P : ℤ → Prop} (hheader : 0 < F.headerSize)
    (hms : ∀ m ∈ ms, F.Frame m) (hP : ∀ m ∈ ms, P m.length) (hxs : xs <+: ms.flatten) :
    F.HeadersSatisfy P xs := by
  rintro ys ⟨⟨ns, hns⟩, hlen⟩
  obtain ⟨ks, hks, zs, hzs⟩ := exists_prefix_of_cuts hheader hms hxs hns
  cases ks with
  | nil =>
    have hnil : ys.length + zs.length = 0 := by
      rw [← List.length_append, hzs]
      rfl
    omega
  | cons k ks =>
    have hk := hks k List.mem_cons_self
    rw [List.flatten_cons] at hzs
    have hdeclared : F.declared ys = k.length := by
      rw [← F.declared_append ys zs hlen, hzs, (hms k hk).declared_append]
    rw [hdeclared]
    exact hP k hk

/-- In a stream of frames every header met is positive. -/
theorem headersPositive_of_prefix (hheader : 0 < F.headerSize) (hms : ∀ m ∈ ms, F.Frame m)
    (hxs : xs <+: ms.flatten) : F.HeadersSatisfy (0 < ·) xs := by
  refine headersSatisfy_of_prefix hheader hms (fun m hm => ?_) hxs
  have := (hms m hm).header
  omega

variable (F) in
/-- The beginning of some stream of frames, cut off anywhere. -/
def WellFormed (xs : List α) : Prop :=
  ∃ ms : List (List α), (∀ m ∈ ms, F.Frame m) ∧ xs <+: ms.flatten

theorem wellFormed_nil : F.WellFormed [] :=
  ⟨[], fun _ h => absurd h List.not_mem_nil, List.nil_prefix⟩

/-- The beginning of one frame. -/
theorem wellFormed_of_prefix (hm : F.Frame m) (hxs : xs <+: m) : F.WellFormed xs := by
  refine ⟨[m], fun k hk => ?_, ?_⟩
  · rw [List.mem_singleton] at hk
    exact hk ▸ hm
  · rwa [List.flatten_singleton]

theorem WellFormed.headersPositive (hheader : 0 < F.headerSize) (h : F.WellFormed xs) :
    F.HeadersSatisfy (0 < ·) xs := by
  obtain ⟨ms, hms, hxs⟩ := h
  exact headersPositive_of_prefix hheader hms hxs

end Format
end EasyTcpServer
