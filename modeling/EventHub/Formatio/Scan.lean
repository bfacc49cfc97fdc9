import EventHub.Formatio.Convert

/-! The loop of `streamout_vprintf`. It follows a pointer through the format string; what it
finds there is a list of directives, and these are printed one after the other. -/

namespace EventHub.Formatio

/-- What `va_arg` yields at one place, whatever the type it is read with. -/
structure VaArg where
  word : BitVec 64
  double : Float
  string : Option (List UInt8)
  array : Nat → UInt8

/-- The arguments of a call; the answers of `eh_malloc` to the conversion of each, and what the
machine makes of it where the language leaves it undefined. -/
structure VaList where
  arg : Nat → VaArg
  alloc : Nat → Nat → Bool
  undefined : Nat → Undefined

def VaArg.int (a : VaArg) : Int := (a.word.setWidth 32).toInt

/-- The argument of an integer conversion as an `unsigned long long`. -/
def VaArg.number (a : VaArg) (signed : Bool) : FormatQualifier → BitVec 64
  | .long | .longLong | .sizeT => a.word
  | .short => if signed then (a.word.setWidth 16).signExtend 64 else (a.word.setWidth 16).setWidth 64
  | .char => if signed then (a.word.setWidth 8).signExtend 64 else (a.word.setWidth 8).setWidth 64
  | .none => if signed then (a.word.setWidth 32).signExtend 64 else (a.word.setWidth 32).setWidth 64

structure Spec where
  flags : Flags
  fieldWidth : Int
  precision : Int
  qualifier : FormatQualifier
deriving DecidableEq, Repr

inductive Conversion
  | string
  | number (base : Nat)
  | char
  | percent
  | pointer
  | float
  | array
deriving DecidableEq, Repr

/-- `fmt`, as the string from there on with its terminator, and the next argument. -/
structure Cursor where
  fmt : List UInt8
  next : Nat

def isdigit (c : UInt8) : Bool := 48 ≤ c ∧ c ≤ 57

/-- The loop over the flag characters. A read behind the terminator is `none`. -/
def scanFlags (flags : Flags) : List UInt8 → Option (Flags × List UInt8)
  | [] => none
  | c :: fmt =>
    if c = '-'.toUInt8 then scanFlags { flags with left := true } fmt
    else if c = '+'.toUInt8 then scanFlags { flags with plus := true } fmt
    else if c = ' '.toUInt8 then scanFlags { flags with space := true } fmt
    else if c = '#'.toUInt8 then scanFlags { flags with special := true } fmt
    else if c = '0'.toUInt8 then scanFlags { flags with zeropad := true } fmt
    else some (flags, c :: fmt)

def skipAtoi (i : Int) : List UInt8 → Option (Int × List UInt8)
  | [] => none
  | c :: fmt =>
    if isdigit c then skipAtoi (wrapInt (i * 10 + ((c.toNat : Int) - 48))) fmt
    else some (i, c :: fmt)

def scanWidth (args : VaList) (flags : Flags) (cur : Cursor) : Option (Int × Flags × Cursor) := do
  let c ← cur.fmt.head?
  if isdigit c then
    let (width, fmt) ← skipAtoi 0 cur.fmt
    some (width, flags, ⟨fmt, cur.next⟩)
  else if c = '*'.toUInt8 then
    let width := (args.arg cur.next).int
    let rest : Cursor := ⟨cur.fmt.tail, cur.next + 1⟩
    if width < 0 then some (wrapInt (-width), { flags with left := true }, rest)
    else some (width, flags, rest)
  else some (-1, flags, cur)

/-- The digits, the `*` or nothing behind the point. -/
def scanPrecisionValue (args : VaList) (cur : Cursor) : Option (Int × Cursor) := do
  let c ← cur.fmt.head?
  if isdigit c then
    let (precision, fmt) ← skipAtoi 0 cur.fmt
    some (precision, ⟨fmt, cur.next⟩)
  else if c = '*'.toUInt8 then some ((args.arg cur.next).int, ⟨cur.fmt.tail, cur.next + 1⟩)
  else some (-1, cur)

def scanPrecision (args : VaList) (cur : Cursor) : Option (Int × Cursor) := do
  let c ← cur.fmt.head?
  if c = '.'.toUInt8 then
    let (precision, rest) ← scanPrecisionValue args ⟨cur.fmt.tail, cur.next⟩
    some (if precision < 0 then 0 else precision, rest)
  else some (-1, cur)

def scanQualifier (fmt : List UInt8) : Option (FormatQualifier × List UInt8) := do
  let c ← fmt.head?
  if c = 'h'.toUInt8 then
    let c ← fmt.tail.head?
    if c = 'h'.toUInt8 then some (.char, fmt.tail.tail) else some (.short, fmt.tail)
  else if c = 'l'.toUInt8 then
    let c ← fmt.tail.head?
    if c = 'l'.toUInt8 then some (.longLong, fmt.tail.tail) else some (.long, fmt.tail)
  else if c = 'L'.toUInt8 then some (.longLong, fmt.tail)
  else if c = 'z'.toUInt8 then some (.sizeT, fmt.tail)
  else some (.none, fmt)

/-- The `switch` over the conversion character; `none` is its default branch. -/
def conversionOf (flags : Flags) (c : UInt8) : Option (Flags × Conversion) :=
  if c = 's'.toUInt8 then some (flags, .string)
  else if c = 'd'.toUInt8 ∨ c = 'i'.toUInt8 then some ({ flags with signed := true }, .number 10)
  else if c = 'u'.toUInt8 then some (flags, .number 10)
  else if c = 'X'.toUInt8 then some ({ flags with large := true }, .number 16)
  else if c = 'x'.toUInt8 then some (flags, .number 16)
  else if c = 'c'.toUInt8 then some (flags, .char)
  else if c = '%'.toUInt8 then some (flags, .percent)
  else if c = 'B'.toUInt8 then some ({ flags with large := true }, .number 2)
  else if c = 'b'.toUInt8 then some (flags, .number 2)
  else if c = 'o'.toUInt8 then some (flags, .number 8)
  else if c = 'p'.toUInt8 then some (flags, .pointer)
  else if c = 'E'.toUInt8 then some ({ flags with large := true, floatE := true }, .float)
  else if c = 'e'.toUInt8 then some ({ flags with floatE := true }, .float)
  else if c = 'G'.toUInt8 then some ({ flags with large := true, floatG := true }, .float)
  else if c = 'g'.toUInt8 then some ({ flags with floatG := true }, .float)
  else if c = 'F'.toUInt8 then some ({ flags with large := true, floatF := true }, .float)
  else if c = 'f'.toUInt8 then some ({ flags with floatF := true }, .float)
  else if c = 'Q'.toUInt8 then some ({ flags with large := true }, .array)
  else if c = 'q'.toUInt8 then some (flags, .array)
  else none

/-- How many arguments a conversion takes. `long double` is not supported and takes none. -/
def Conversion.arity (qualifier : FormatQualifier) : Conversion → Nat
  | percent => 0
  | float => if qualifier = .longLong then 0 else 1
  | _ => 1

inductive Directive
  | byte (c : UInt8)
  | unknown
  | convert (conversion : Conversion) (spec : Spec) (arg : Nat)
deriving DecidableEq, Repr

/-- What stands behind a `%`. An unknown conversion is read again as plain text. -/
def scanConversion (args : VaList) (cur : Cursor) : Option (Directive × Cursor) := do
  let (flags, fmt) ← scanFlags {} cur.fmt
  let (fieldWidth, flags, rest) ← scanWidth args flags ⟨fmt, cur.next⟩
  let (precision, rest) ← scanPrecision args rest
  let (qualifier, fmt) ← scanQualifier rest.fmt
  let c ← fmt.head?
  match conversionOf flags c with
  | some (flags, conversion) =>
    some (.convert conversion ⟨flags, fieldWidth, precision, qualifier⟩ rest.next,
      ⟨fmt.tail, rest.next + conversion.arity qualifier⟩)
  | none => some (.unknown, ⟨cur.fmt, rest.next⟩)

/-- One pass of the loop; `some none` at the terminator. -/
def scanDirective (args : VaList) (cur : Cursor) : Option (Option (Directive × Cursor)) := do
  let c ← cur.fmt.head?
  if c = 0 then some none
  else if c ≠ '%'.toUInt8 then some (some (.byte c, ⟨cur.fmt.tail, cur.next⟩))
  else (scanConversion args ⟨cur.fmt.tail, cur.next⟩).map some

/-- What a directive passes to `streamout_in_byte`, and what it adds to `n`. -/
def Directive.print (args : VaList) : Directive → Option Printed
  | byte c => some (Printed.empty.put c)
  | unknown => some (Printed.empty.out '%'.toUInt8)
  | convert conversion ⟨flags, fieldWidth, precision, qualifier⟩ arg =>
    let a := args.arg arg
    match conversion with
    | .string => some (vprintfString a.string fieldWidth precision flags)
    | .number base => some (vprintfNumber (args.alloc arg 0) (a.number flags.signed qualifier)
        fieldWidth precision flags base)
    | .char => some (vprintfChar ⟨a.word.setWidth 8⟩ fieldWidth flags)
    | .percent => some (Printed.empty.put '%'.toUInt8)
    | .pointer =>
      if fieldWidth < 0 then
        some (vprintfNumber (args.alloc arg 0) a.word 18 precision
          { flags with zeropad := true, special := true } 16)
      else some (vprintfNumber (args.alloc arg 0) a.word fieldWidth precision flags 16)
    | .float =>
      if qualifier = .longLong then some .empty
      else vprintfFloat (args.alloc arg) (args.undefined arg) a.double fieldWidth precision flags
    | .array => some (vprintfArray a.array fieldWidth precision flags qualifier)

def Printed.append (p q : Printed) : Printed := ⟨p.bytes ++ q.bytes, p.n + q.n⟩

def vprintfLoop (args : VaList) : Nat → Cursor → Printed → Option Printed
  | 0, _, _ => none
  | fuel + 1, cur, p =>
    (scanDirective args cur).bind fun
      | none => some p
      | some (d, rest) => (d.print args).bind fun q => vprintfLoop args fuel rest (p.append q)

/-- `streamout_vprintf`, apart from the stream. -/
def formatted (args : VaList) (fmt : List UInt8) : Option Printed :=
  vprintfLoop args (fmt.length + 1) ⟨fmt ++ [0], 0⟩ .empty

def directivesFrom (args : VaList) : Nat → Cursor → Option (List Directive)
  | 0, _ => none
  | fuel + 1, cur =>
    (scanDirective args cur).bind fun
      | none => some []
      | some (d, rest) => (directivesFrom args fuel rest).map (d :: ·)

def directives (args : VaList) (fmt : List UInt8) : Option (List Directive) :=
  directivesFrom args (fmt.length + 1) ⟨fmt ++ [0], 0⟩

def printAll (args : VaList) (ds : List Directive) (p : Printed) : Option Printed :=
  ds.foldlM (fun p d => (d.print args).map p.append) p

section Scan
variable {args : VaList} {fmt : List UInt8} {cur : Cursor} {c : UInt8}

theorem head_of_mem (ahead : 0 ∈ fmt) : ∃ c, fmt.head? = some c ∧ (c ≠ 0 → 0 ∈ fmt.tail) := by
  cases fmt with
  | nil => simp at ahead
  | cons c fmt => exact ⟨c, rfl, fun ne => (List.mem_cons.mp ahead).resolve_left ne.symm⟩

/-- The pointer has moved on, and not past the terminator. -/
def Within (fmt rest : List UInt8) : Prop := 0 ∈ rest ∧ rest.length ≤ fmt.length

theorem Within.refl (ahead : 0 ∈ fmt) : Within fmt fmt := ⟨ahead, le_refl _⟩

theorem Within.trans {rest last : List UInt8} (h : Within fmt rest) (k : Within rest last) :
    Within fmt last := ⟨k.1, k.2.trans h.2⟩

theorem Within.tail (ahead : 0 ∈ fmt.tail) : Within fmt fmt.tail :=
  ⟨ahead, by rw [List.length_tail]; exact Nat.sub_le ..⟩

theorem tail_within (c : UInt8) (ahead : 0 ∈ fmt) : Within (c :: fmt) fmt :=
  Within.tail ahead

theorem scanFlags_within (flags : Flags) (ahead : 0 ∈ fmt) :
    ∃ flags' rest, scanFlags flags fmt = some (flags', rest) ∧ Within fmt rest := by
  induction fmt generalizing flags with
  | nil => simp at ahead
  | cons c fmt ih =>
    have next : c ≠ 0 → ∀ flags, ∃ flags' rest, scanFlags flags fmt = some (flags', rest) ∧
        Within (c :: fmt) rest := by
      intro ne flags
      have later := (List.mem_cons.mp ahead).resolve_left ne.symm
      obtain ⟨flags', rest, scan, within⟩ := ih flags later
      exact ⟨flags', rest, scan, (tail_within c later).trans within⟩
    unfold scanFlags
    split
    · next eq => exact next (eq ▸ by decide) _
    split
    · next eq => exact next (eq ▸ by decide) _
    split
    · next eq => exact next (eq ▸ by decide) _
    split
    · next eq => exact next (eq ▸ by decide) _
    split
    · next eq => exact next (eq ▸ by decide) _
    · exact ⟨_, _, rfl, .refl ahead⟩

theorem ne_zero_of_isdigit (digit : isdigit c = true) : c ≠ 0 := by
  rintro rfl
  cases digit

theorem skipAtoi_within (i : Int) (ahead : 0 ∈ fmt) :
    ∃ k rest, skipAtoi i fmt = some (k, rest) ∧ Within fmt rest := by
  induction fmt generalizing i with
  | nil => simp at ahead
  | cons c fmt ih =>
    unfold skipAtoi
    split
    · next digit =>
      have later := (List.mem_cons.mp ahead).resolve_left (ne_zero_of_isdigit digit).symm
      obtain ⟨k, rest, scan, within⟩ := ih _ later
      exact ⟨k, rest, scan, (tail_within c later).trans within⟩
    · exact ⟨_, _, rfl, .refl ahead⟩

theorem scanWidth_within (args : VaList) (cur : Cursor) (flags : Flags) (ahead : 0 ∈ cur.fmt) :
    ∃ width flags' rest, scanWidth args flags cur = some (width, flags', rest) ∧
      Within cur.fmt rest.fmt := by
  obtain ⟨c, head, later⟩ := head_of_mem ahead
  simp only [scanWidth, head, Option.bind_eq_bind, Option.bind_some]
  split
  · obtain ⟨k, rest, scan, within⟩ := skipAtoi_within 0 ahead
    exact ⟨k, flags, ⟨rest, _⟩, by rw [scan]; rfl, within⟩
  split
  · next star =>
    have within := Within.tail (later (star ▸ by decide))
    split
    · exact ⟨_, _, _, rfl, within⟩
    · exact ⟨_, _, _, rfl, within⟩
  · exact ⟨_, _, _, rfl, .refl ahead⟩

theorem scanPrecisionValue_within (args : VaList) (cur : Cursor) (ahead : 0 ∈ cur.fmt) :
    ∃ precision rest, scanPrecisionValue args cur = some (precision, rest) ∧
      Within cur.fmt rest.fmt := by
  obtain ⟨c, head, later⟩ := head_of_mem ahead
  simp only [scanPrecisionValue, head, Option.bind_eq_bind, Option.bind_some]
  split
  · obtain ⟨k, rest, scan, within⟩ := skipAtoi_within 0 ahead
    exact ⟨k, ⟨rest, _⟩, by rw [scan]; rfl, within⟩
  split
  · next star => exact ⟨_, _, rfl, .tail (later (star ▸ by decide))⟩
  · exact ⟨_, _, rfl, .refl ahead⟩

theorem scanPrecision_within (args : VaList) (ahead : 0 ∈ cur.fmt) :
    ∃ precision rest, scanPrecision args cur = some (precision, rest) ∧
      Within cur.fmt rest.fmt := by
  obtain ⟨c, head, later⟩ := head_of_mem ahead
  simp only [scanPrecision, head, Option.bind_eq_bind, Option.bind_some]
  split
  · next point =>
    have ahead' := later (point ▸ by decide)
    obtain ⟨precision, rest, scan, within⟩ :=
      scanPrecisionValue_within args ⟨cur.fmt.tail, cur.next⟩ ahead'
    exact ⟨_, rest, by rw [scan]; rfl, (Within.tail ahead').trans within⟩
  · exact ⟨_, _, rfl, .refl ahead⟩

theorem scanQualifier_within (ahead : 0 ∈ fmt) :
    ∃ qualifier rest, scanQualifier fmt = some (qualifier, rest) ∧ Within fmt rest := by
  obtain ⟨c, head, later⟩ := head_of_mem ahead
  simp only [scanQualifier, head, Option.bind_eq_bind, Option.bind_some]
  -- `hh` and `ll` look one byte further
  have double : c ≠ 0 → ∀ (letter : UInt8) (a b : FormatQualifier), letter ≠ 0 →
      ∃ qualifier rest, (fmt.tail.head?.bind fun d =>
        if d = letter then some (a, fmt.tail.tail) else some (b, fmt.tail)) =
          some (qualifier, rest) ∧ Within fmt rest := by
    intro ne letter a b nonzero
    have ahead' := later ne
    obtain ⟨d, head', later'⟩ := head_of_mem ahead'
    rw [head', Option.bind_some]
    split
    · next same =>
      exact ⟨_, _, rfl, (Within.tail ahead').trans (.tail (later' (same ▸ nonzero)))⟩
    · exact ⟨_, _, rfl, .tail ahead'⟩
  split
  · next h => exact double (h ▸ by decide) _ _ _ (by decide)
  split
  · next h => exact double (h ▸ by decide) _ _ _ (by decide)
  split
  · next h => exact ⟨_, _, rfl, .tail (later (h ▸ by decide))⟩
  split
  · next h => exact ⟨_, _, rfl, .tail (later (h ▸ by decide))⟩
  · exact ⟨_, _, rfl, .refl ahead⟩

theorem scanConversion_within (args : VaList) (cur : Cursor) (ahead : 0 ∈ cur.fmt) :
    ∃ d rest, scanConversion args cur = some (d, rest) ∧ Within cur.fmt rest.fmt := by
  obtain ⟨flags, fmt, scan₁, within₁⟩ := scanFlags_within {} ahead
  obtain ⟨width, flags', rest, scan₂, within₂⟩ :=
    scanWidth_within args ⟨fmt, cur.next⟩ flags within₁.1
  obtain ⟨precision, rest', scan₃, within₃⟩ := scanPrecision_within args within₂.1
  obtain ⟨qualifier, fmt', scan₄, within₄⟩ := scanQualifier_within within₃.1
  obtain ⟨c, head, later⟩ := head_of_mem within₄.1
  simp only [scanConversion, scan₁, scan₂, scan₃, scan₄, head, Option.bind_eq_bind,
    Option.bind_some]
  cases conversion : conversionOf flags' c with
  | none => exact ⟨_, _, rfl, .refl ahead⟩
  | some found =>
    have ne : c ≠ 0 := by
      rintro rfl
      cases conversion
    exact ⟨_, _, rfl, ((within₁.trans within₂).trans within₃).trans
      (within₄.trans (.tail (later ne)))⟩

theorem scanDirective_within (args : VaList) (ahead : 0 ∈ cur.fmt) : scanDirective args cur = some none ∨
    ∃ d rest, scanDirective args cur = some (some (d, rest)) ∧ 0 ∈ rest.fmt ∧
      rest.fmt.length < cur.fmt.length := by
  obtain ⟨c, head, later⟩ := head_of_mem ahead
  have shorter : cur.fmt.tail.length < cur.fmt.length := by
    rw [List.length_tail]
    exact Nat.sub_one_lt_of_lt (List.length_pos_of_mem ahead)
  simp only [scanDirective, head, Option.bind_eq_bind, Option.bind_some]
  split
  · exact .inl rfl
  · next ne =>
    right
    split
    · exact ⟨_, _, rfl, later ne, shorter⟩
    · obtain ⟨d, rest, scan, within⟩ :=
        scanConversion_within args ⟨cur.fmt.tail, cur.next⟩ (later ne)
      exact ⟨d, rest, by rw [scan]; rfl, within.1, within.2.trans_lt shorter⟩

theorem directivesFrom_some {fuel : Nat} (ahead : 0 ∈ cur.fmt) (enough : cur.fmt.length ≤ fuel) :
    ∃ ds, directivesFrom args fuel cur = some ds := by
  induction fuel generalizing cur with
  | zero =>
    rw [List.length_eq_zero_iff.mp (Nat.le_zero.mp enough)] at ahead
    cases ahead
  | succ fuel ih =>
    unfold directivesFrom
    rcases scanDirective_within args ahead with last | ⟨d, rest, scan, ahead', shorter⟩
    · exact ⟨[], by rw [last]; rfl⟩
    · obtain ⟨ds, more⟩ := ih ahead' (by omega)
      refine ⟨d :: ds, ?_⟩
      rw [scan, Option.bind_some]
      dsimp only
      rw [more]
      rfl

theorem directives_some (args : VaList) (fmt : List UInt8) :
    ∃ ds, directives args fmt = some ds :=
  directivesFrom_some (by simp) (by simp)

theorem vprintfLoop_eq {fuel : Nat} {ds : List Directive} {p : Printed}
    (scan : directivesFrom args fuel cur = some ds) :
    vprintfLoop args fuel cur p = printAll args ds p := by
  induction fuel generalizing cur ds p with
  | zero => cases scan
  | succ fuel ih =>
    unfold vprintfLoop
    unfold directivesFrom at scan
    obtain ⟨found, first, more⟩ := Option.bind_eq_some_iff.mp scan
    rw [first, Option.bind_some]
    cases found with
    | none =>
      obtain rfl := Option.some.inj more
      rfl
    | some found =>
      obtain ⟨d, rest⟩ := found
      obtain ⟨ds, later, rfl⟩ := Option.map_eq_some_iff.mp more
      dsimp only
      rw [printAll, List.foldlM_cons]
      cases d.print args with
      | none => rfl
      | some q => exact ih later

theorem formatted_eq {ds : List Directive} (scan : directives args fmt = some ds) :
    formatted args fmt = printAll args ds .empty :=
  vprintfLoop_eq scan

end Scan

end EventHub.Formatio
