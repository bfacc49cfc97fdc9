import EventHub.Formatio.Streams

/-! The returned length. -/

namespace EventHub.Formatio

def Directive.Buffered (args : VaList) : Directive → Prop
  | convert .float spec arg => spec.qualifier ≠ .longLong →
    FloatFits (args.alloc arg) (args.undefined arg) (args.arg arg).double spec.fieldWidth
      spec.precision spec.flags
  | _ => True

def Directive.bytes (args : VaList) (d : Directive) : List UInt8 :=
  ((d.print args).getD .empty).bytes

def outputOf (args : VaList) (ds : List Directive) : List UInt8 := ds.flatMap (·.bytes args)

section Length
variable {args : VaList} {d : Directive} {ds : List Directive} {p q : Printed}

theorem Directive.print_isSome_iff : (d.print args).isSome ↔ d.Buffered args := by
  cases d with
  | byte c => simp [print, Buffered]
  | unknown => simp [print, Buffered]
  | convert conversion spec arg =>
    cases conversion with
    | float =>
      simp only [print, Buffered]
      by_cases long : spec.qualifier = .longLong
      · simp [long]
      · rw [if_neg long, vprintfFloat_fits]
        simp [long]
    | pointer =>
      simp only [print, Buffered, iff_true]
      split <;> rfl
    | _ => simp [print, Buffered]

theorem Directive.print_n (small : p.bytes.length ≤ 2147483647) (run : d.print args = some p) :
    p.n + [d].count .unknown = p.bytes.length := by
  have exact_n : p.Exact → d ≠ .unknown → p.n + [d].count .unknown = p.bytes.length := by
    intro exactP known
    rw [List.count_eq_zero.mpr (by simpa using known.symm), Nat.cast_zero, Int.add_zero]
    exact exactP
  cases d with
  | byte c =>
    obtain rfl := Option.some.inj run
    rfl
  | unknown =>
    obtain rfl := Option.some.inj run
    rfl
  | convert conversion spec arg =>
    refine exact_n ?_ (by simp)
    cases conversion with
    | string =>
      obtain rfl := Option.some.inj run
      exact vprintfString_exact _
    | number base =>
      obtain rfl := Option.some.inj run
      exact vprintfNumber_exact ..
    | char =>
      obtain rfl := Option.some.inj run
      exact vprintfChar_exact _
    | percent =>
      obtain rfl := Option.some.inj run
      rfl
    | pointer =>
      simp only [print] at run
      split at run
      · obtain rfl := Option.some.inj run
        exact vprintfNumber_exact ..
      · obtain rfl := Option.some.inj run
        exact vprintfNumber_exact ..
    | float =>
      simp only [print] at run
      split at run
      · obtain rfl := Option.some.inj run
        rfl
      · exact vprintfFloat_exact small run
    | array =>
      obtain rfl := Option.some.inj run
      exact vprintfArray_exact ..

theorem printAll_isSome_iff : (printAll args ds p).isSome ↔ ∀ d ∈ ds, d.Buffered args := by
  induction ds generalizing p with
  | nil => simp [printAll]
  | cons d ds ih =>
    rw [printAll, List.foldlM_cons, List.forall_mem_cons, ← Directive.print_isSome_iff]
    cases d.print args with
    | none => simp
    | some q => simpa [printAll] using ih

theorem printAll_spec (run : printAll args ds p = some q) :
    q.bytes = p.bytes ++ outputOf args ds ∧ ((outputOf args ds).length ≤ 2147483647 →
      q.n + ds.count .unknown = p.n + (outputOf args ds).length) := by
  induction ds generalizing p with
  | nil =>
    obtain rfl := Option.some.inj run
    simp [outputOf]
  | cons d ds ih =>
    rw [printAll, List.foldlM_cons] at run
    obtain ⟨p', first, more⟩ := Option.bind_eq_some_iff.mp run
    obtain ⟨r, print, rfl⟩ := Option.map_eq_some_iff.mp first
    obtain ⟨bytes, counted⟩ := ih more
    have here : d.bytes args = r.bytes := by rw [Directive.bytes, print, Option.getD_some]
    have output : outputOf args (d :: ds) = r.bytes ++ outputOf args ds := by
      rw [outputOf, List.flatMap_cons, here]
      rfl
    refine ⟨by rw [bytes, output, Printed.append, List.append_assoc], fun small => ?_⟩
    rw [output, List.length_append] at small ⊢
    have rest := counted (by omega)
    have one := d.print_n (by omega) print
    rw [List.count_cons, ← List.count_singleton]
    simp only [Printed.append] at rest
    push_cast
    omega

theorem count_unknown_le (args : VaList) (ds : List Directive) :
    ds.count .unknown ≤ (outputOf args ds).length := by
  induction ds with
  | nil => exact le_refl _
  | cons d ds ih =>
    have output : outputOf args (d :: ds) = d.bytes args ++ outputOf args ds := List.flatMap_cons
    rw [output, List.length_append, List.count_cons]
    by_cases unknown : d = .unknown
    · subst unknown
      have one : ((Directive.unknown).bytes args).length = 1 := rfl
      rw [if_pos (by simp), one]
      omega
    · rw [if_neg (by simpa using unknown)]
      omega

end Length

/-- `streamout_vprintf` returns the number of the bytes that it passes to `streamout_in_byte`,
and so do the functions that call it. -/
def ReturnsLength (fmt : List UInt8) (args : VaList) : Prop :=
  ∃ p, formatted args fmt = some p ∧
    (∀ stream, ehStreamVprintf stream fmt args =
      some ((p.bytes.length : Int), p.bytes.foldl streamoutInByte stream)) ∧
    ∀ byte buf size, (ehVsnprintf byte buf size fmt args).map Prod.fst =
      some (p.bytes.length : Int)

/-- Scanning always ends at the terminator at the latest; the returned length is that of the
output exactly when no conversion is unknown, every buffer is there, and the output is not
longer than an `int` can tell. -/
theorem streamoutVprintf_length_iff (fmt : List UInt8) (args : VaList) :
    ∃ ds, directives args fmt = some ds ∧ (ReturnsLength fmt args ↔
      .unknown ∉ ds ∧ (∀ d ∈ ds, d.Buffered args) ∧
        (outputOf args ds).length ≤ 2147483647) := by
  obtain ⟨ds, scan⟩ := directives_some args fmt
  refine ⟨ds, scan, ?_⟩
  have run := formatted_eq scan
  constructor
  · rintro ⟨p, print, returned, -⟩
    have all : printAll args ds .empty = some p := run.symm.trans print
    obtain ⟨bytes, counted⟩ := printAll_spec all
    have wrapped : wrapInt p.n = p.bytes.length := by
      have := returned (.function (ehStreamFunctionInit 1))
      rw [ehStreamVprintf, streamoutVprintf, print] at this
      exact congrArg Prod.fst (Option.some.inj this)
    have length : p.bytes.length = (outputOf args ds).length := by
      rw [bytes]
      rfl
    have few := count_unknown_le args ds
    have small : (outputOf args ds).length ≤ 2147483647 := by
      unfold wrapInt at wrapped
      omega
    have count := counted small
    refine ⟨List.count_eq_zero.mp ?_, printAll_isSome_iff.mp (by rw [all]; rfl), small⟩
    simp only [wrapInt, Printed.empty] at wrapped count
    omega
  · rintro ⟨known, buffered, small⟩
    obtain ⟨p, all⟩ := Option.isSome_iff_exists.mp (printAll_isSome_iff (p := .empty).mpr buffered)
    obtain ⟨bytes, counted⟩ := printAll_spec all
    have print := run.trans all
    have length : p.bytes.length = (outputOf args ds).length := by
      rw [bytes]
      rfl
    have wrapped : wrapInt p.n = p.bytes.length := by
      have count := counted small
      rw [List.count_eq_zero.mpr known] at count
      simp only [Printed.empty] at count
      unfold wrapInt
      omega
    have returned : ∀ stream, ehStreamVprintf stream fmt args =
        some ((p.bytes.length : Int), p.bytes.foldl streamoutInByte stream) := fun stream => by
      rw [ehStreamVprintf, streamoutVprintf, print, Option.map_some, wrapped]
    refine ⟨p, print, returned, fun byte buf size => ?_⟩
    rw [ehVsnprintf, ← ehStreamVprintf, returned]
    rfl

def fortyTwo : VaList :=
  ⟨fun _ => ⟨42, 0, some [97, 98], fun _ => 0⟩, fun _ _ => false, fun _ => ⟨0, 0, false⟩⟩

/-- `%y` is printed as it stands, two bytes, but only one of them is counted. -/
theorem streamoutVprintf_unknown_uncounted :
    ¬ReturnsLength (bytesOf "%y") fortyTwo ∧
    formatted fortyTwo (bytesOf "%y") = some ⟨bytesOf "%y", 1⟩ := by
  have run : formatted fortyTwo (bytesOf "%y") = some ⟨bytesOf "%y", 1⟩ := by decide +kernel
  refine ⟨?_, run⟩
  rintro ⟨p, print, returned, -⟩
  obtain rfl := Option.some.inj (run.symm.trans print)
  have := returned (.function (ehStreamFunctionInit 1))
  rw [ehStreamVprintf, streamoutVprintf, run] at this
  exact absurd (congrArg Prod.fst (Option.some.inj this)) (by decide)

end EventHub.Formatio
