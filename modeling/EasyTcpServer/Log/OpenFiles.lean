import EasyTcpServer.Log.CellLog

/-!
# Open files of a log

`HasOpen` says that the pointer of a channel has a file that is open.  `Files` is what the code
keeps of the files whatever it does: they are numbered by the calls of `fopen`, and the two
pointers have different ones.  So `fclose` of the one leaves the other open, and what `fopen`
brings is open.
-/

namespace EasyTcpServer
namespace CellLog

variable {log log' : CellLog} {c c' : Channel} {ok : Bool}

/-- The pointer of a channel is not null, and its file is open. -/
def HasOpen (log : CellLog) (c : Channel) : Prop := ∃ f ∈ log.file c, log.stdio.IsOpen f

instance (log : CellLog) (c : Channel) : Decidable (HasOpen log c) := by
  unfold HasOpen
  infer_instance

/-- Files are numbered by the calls of `fopen`, and the two pointers have different ones. -/
structure Files (log : CellLog) : Prop where
  number : ∀ c, ∀ f ∈ log.file c, f.number < log.stdio.opened
  closed : ∀ f : File, some f ∈ log.stdio.closed → f.number < log.stdio.opened
  apart : ∀ c c' f, f ∈ log.file c → f ∈ log.file c' → c = c'

theorem SameFiles.files (h : SameFiles log log') (hfiles : Files log) : Files log' := by
  obtain ⟨hnumber, hclosed, hapart⟩ := hfiles
  constructor
  · simpa only [h.file, h.opened] using hnumber
  · simpa only [h.closed, h.opened] using hclosed
  · simpa only [h.file] using hapart

theorem SameFiles.hasOpen_iff (h : SameFiles log log') : HasOpen log' c ↔ HasOpen log c := by
  simp only [HasOpen, Stdio.IsOpen, h.file, h.opened, h.closed]

theorem files_new : Files new := by
  have hnone (c : Channel) (f : File) : f ∉ new.file c := by
    cases c <;> exact nofun
  exact ⟨fun c f hf => absurd hf (hnone c f), nofun, fun c _ f hf => absurd hf (hnone c f)⟩

theorem Files.fclose (h : Files log) (c : Channel) : Files (log.fclose c) := by
  refine ⟨?_, fun f hf => ?_, ?_⟩
  · simpa only [file_fclose, opened_fclose] using h.number
  · rw [closed_fclose, List.mem_append, List.mem_singleton] at hf
    obtain hclosed | hown := hf
    · exact h.closed f hclosed
    · exact h.number c f hown.symm
  · simpa only [file_fclose] using h.apart

theorem Files.setNull (h : Files log) (c : Channel) : Files (log.setFile none c) := by
  have hfile {c' : Channel} {f : File} (hf : f ∈ (log.setFile none c).file c') :
      f ∈ log.file c' := by
    by_cases hc : c' = c
    · rw [hc, file_setFile] at hf
      cases hf
    · rwa [file_setFile_of_ne _ _ hc] at hf
  constructor
  · intro c' f hf
    rw [stdio_setFile]
    exact h.number c' f (hfile hf)
  · rw [stdio_setFile]
    exact h.closed
  · exact fun c₁ c₂ f h₁ h₂ => h.apart c₁ c₂ f (hfile h₁) (hfile h₂)

/-- The pointer has the file of the last `fopen`, and the other one an earlier file. -/
theorem Files.mem_fopen (h : Files log) {f : File} (hf : f ∈ (log.fopen c ok).file c') :
    c' = c ∧ ok = true ∧ f = ⟨log.stdio.opened⟩ ∨
      f ∈ log.file c' ∧ f.number < log.stdio.opened := by
  by_cases hc : c' = c
  · subst hc
    rw [file_fopen] at hf
    cases ok with
    | true => exact .inl ⟨rfl, rfl, (Option.some.inj hf).symm⟩
    | false => cases hf
  · rw [file_fopen_of_ne _ _ hc] at hf
    exact .inr ⟨hf, h.number c' f hf⟩

theorem Files.fopen (h : Files log) (c : Channel) (ok : Bool) : Files (log.fopen c ok) := by
  constructor
  · intro c' f hf
    rw [opened_fopen]
    obtain ⟨-, rfl, rfl⟩ | ⟨-, hlt⟩ := h.mem_fopen hf
    · exact Nat.lt_succ_self _
    · exact Nat.lt_add_right _ hlt
  · intro f hf
    rw [closed_fopen] at hf
    rw [opened_fopen]
    exact Nat.lt_add_right _ (h.closed f hf)
  · intro c₁ c₂ f h₁ h₂
    obtain ⟨rfl, -, heq₁⟩ | ⟨hold₁, hlt₁⟩ := h.mem_fopen h₁
    · obtain ⟨rfl, -, -⟩ | ⟨-, hlt₂⟩ := h.mem_fopen h₂
      · rfl
      · exact absurd hlt₂ (by rw [heq₁]; exact Nat.lt_irrefl _)
    · obtain ⟨rfl, -, heq₂⟩ | ⟨hold₂, -⟩ := h.mem_fopen h₂
      · exact absurd hlt₁ (by rw [heq₂]; exact Nat.lt_irrefl _)
      · exact h.apart c₁ c₂ f hold₁ hold₂

/-! ### Open files -/

theorem not_hasOpen_fclose (log : CellLog) (c : Channel) : ¬ HasOpen (log.fclose c) c := by
  rintro ⟨f, hf, -, hopen⟩
  rw [file_fclose] at hf
  rw [closed_fclose, hf] at hopen
  exact hopen (List.mem_append_right _ (List.mem_singleton.mpr rfl))

theorem not_hasOpen_of_none (h : log.file c = none) : ¬ HasOpen log c := by
  rintro ⟨f, hf, -⟩
  rw [h] at hf
  cases hf

/-- Closing one file leaves the other open. -/
theorem HasOpen.fclose (h : HasOpen log c') (hfiles : Files log) (hne : c' ≠ c) :
    HasOpen (log.fclose c) c' := by
  obtain ⟨f, hf, hlt, hopen⟩ := h
  refine ⟨f, by rwa [file_fclose], hlt, ?_⟩
  rw [closed_fclose, List.mem_append, List.mem_singleton]
  rintro (hclosed | hown)
  · exact hopen hclosed
  · exact hne (hfiles.apart c' c f hf hown.symm)

theorem HasOpen.setNull (h : HasOpen log c') (hne : c' ≠ c) : HasOpen (log.setFile none c) c' := by
  obtain ⟨f, hf, hopen⟩ := h
  refine ⟨f, by rwa [file_setFile_of_ne _ _ hne], ?_⟩
  rwa [stdio_setFile]

theorem HasOpen.fopen (h : HasOpen log c') (hne : c' ≠ c) (ok : Bool) :
    HasOpen (log.fopen c ok) c' := by
  obtain ⟨f, hf, hlt, hopen⟩ := h
  refine ⟨f, by rwa [file_fopen_of_ne _ _ hne], ?_, by rwa [closed_fopen]⟩
  rw [opened_fopen]
  exact Nat.lt_add_right _ hlt

/-- A new file is open. -/
theorem Files.hasOpen_fopen (h : Files log) (c : Channel) : HasOpen (log.fopen c true) c := by
  refine ⟨⟨log.stdio.opened⟩, ?_, ?_, fun hclosed => ?_⟩
  · rw [file_fopen]
    rfl
  · rw [opened_fopen]
    exact Nat.lt_succ_self _
  · rw [closed_fopen] at hclosed
    exact Nat.lt_irrefl _ (h.closed _ hclosed)

end CellLog
end EasyTcpServer
