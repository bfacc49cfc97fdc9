import EventHub.Formatio.Length

/-! Formatting into a buffer. -/

namespace EventHub.Formatio

/-- `eh_vsnprintf` stores to the buffer only. If the buffer is not empty, it holds the first
bytes of the output and a terminator, and nothing else in memory has changed. -/
def StaysInBuffer (byte : Nat → UInt8) (buf size : Nat) (fmt : List UInt8) (args : VaList)
    (out : List UInt8) : Prop :=
  ∃ n m, ehVsnprintf byte buf size fmt args = some (n, .memory m) ∧
    (∀ a ∈ m.stored, buf ≤ a ∧ a < buf + size) ∧
    (1 ≤ size → m.byte = terminated byte buf size out)

/-- Bounded formatting stays in its buffer exactly when there is a buffer at all, and when the
digits of every floating point conversion have one. -/
theorem ehVsnprintf_stays_iff (byte : Nat → UInt8) (buf size : Nat) (fmt : List UInt8)
    (args : VaList) :
    ∃ ds, directives args fmt = some ds ∧
      (StaysInBuffer byte buf size fmt args (outputOf args ds) ↔
        1 ≤ size ∧ ∀ d ∈ ds, d.Buffered args) := by
  obtain ⟨ds, scan⟩ := directives_some args fmt
  refine ⟨ds, scan, ?_⟩
  have run := formatted_eq scan
  have printed : ∀ p, formatted args fmt = some p → ∃ m,
      ehVsnprintf byte buf size fmt args = some (wrapInt p.n, .memory m.finish) ∧
        Filled byte buf size (outputOf args ds) m := by
    intro p print
    obtain ⟨bytes, -⟩ := printAll_spec (run.symm.trans print)
    obtain ⟨m, fold, filled⟩ := (Filled.init byte buf size).foldl p.bytes
    rw [bytes] at filled
    refine ⟨m, ?_, filled⟩
    rw [ehVsnprintf, streamoutVprintf, print, Option.map_some, Option.map_some, fold]
    rfl
  constructor
  · rintro ⟨n, m, call, inside, -⟩
    obtain ⟨p, print⟩ : ∃ p, formatted args fmt = some p := by
      rw [ehVsnprintf, streamoutVprintf, Option.map_map] at call
      obtain ⟨p, print, -⟩ := Option.map_eq_some_iff.mp call
      exact ⟨p, print⟩
    obtain ⟨m', call', filled⟩ := printed p print
    rw [call'] at call
    cases call
    refine ⟨Nat.pos_of_ne_zero ?_, printAll_isSome_iff.mp (by rw [← run, print]; rfl)⟩
    rintro rfl
    have := inside _ filled.finish_empty
    omega
  · rintro ⟨some, buffered⟩
    obtain ⟨p, all⟩ := Option.isSome_iff_exists.mp (printAll_isSome_iff.mpr buffered)
    obtain ⟨m, call, filled⟩ := printed p (run.trans all)
    obtain ⟨content, stored⟩ := filled.finish some
    exact ⟨_, _, call, stored, fun _ => content⟩

/-- With size 0 the terminator goes in front of the buffer. -/
theorem ehVsnprintf_stores_before :
    ∃ ds, directives fortyTwo [] = some ds ∧
      ¬StaysInBuffer (fun _ => 0) 4096 0 [] fortyTwo (outputOf fortyTwo ds) := by
  refine ⟨[], rfl, ?_⟩
  rintro ⟨n, m, call, inside, -⟩
  cases call
  exact absurd (inside 4095 (List.mem_singleton_self _)) (by decide)

end EventHub.Formatio
