import EventHub.Formatio.Numbers

/-! The padding of `vprintf_array`. The length of the output is predicted before the elements are
printed. -/

namespace EventHub.Formatio

def hexDigits (digits : List UInt8) (byte : UInt8) : List UInt8 :=
  [digits.getD (byte.toNat / 16 % 16) 0, digits.getD (byte.toNat % 16) 0]

def itemDigits (digits : List UInt8) (array : Nat → UInt8) (start size : Nat) : List UInt8 :=
  (List.range size).reverse.flatMap fun j => hexDigits digits (array (start + j))

def arrayElements (array : Nat → UInt8) (precision : Nat) (flags : Flags)
    (qualifier : FormatQualifier) : List UInt8 :=
  let digits := if flags.large then largeDigits else smallDigits
  let size := qualifier.itemSize
  let full := (List.range (precision / size)).flatMap fun i =>
    (if i ≠ 0 then [' '.toUInt8] else []) ++ itemDigits digits array (i * size) size
  if precision % size ≠ 0 then
    full ++ [' '.toUInt8] ++ List.replicate (2 * (size - precision % size)) '?'.toUInt8 ++
      itemDigits digits array (precision / size * size) (precision % size)
  else full

def FillsField (fieldWidth : Int) (flags : Flags) (elements : List UInt8) (p : Printed) : Prop :=
  (∃ k, p.bytes = if flags.left then elements ++ List.replicate k ' '.toUInt8
    else List.replicate k ' '.toUInt8 ++ elements) ∧
  (p.bytes.length : Int) = max fieldWidth elements.length

/-- `valid_len`, exactly. -/
def predictedLen (size precision : Nat) : Int :=
  ((precision / size : Nat) - (if precision % size ≠ 0 then 1 else 0)) * (2 * size + 1) - 1

section Bytes
variable {fieldWidth : Int} {precision : Nat} {flags : Flags} {qualifier : FormatQualifier}

theorem foldl_bytes {α : Type} {f : Printed → α → Printed} {g : α → List UInt8}
    (one : ∀ p a, (f p a).bytes = p.bytes ++ g a) (p : Printed) (l : List α) :
    (l.foldl f p).bytes = p.bytes ++ l.flatMap g := by
  induction l generalizing p with
  | nil => simp
  | cons a l ih => rw [List.foldl_cons, ih, one, List.flatMap_cons, List.append_assoc]

@[simp] theorem item_bytes (p : Printed) (digits : List UInt8) (array : Nat → UInt8)
    (start size : Nat) :
    (p.item digits array start size).bytes = p.bytes ++ itemDigits digits array start size := by
  refine foldl_bytes (fun p j => ?_) p _
  simp [Printed.hexByte, Printed.out, Printed.count, hexDigits]

theorem itemDigits_length (digits : List UInt8) (array : Nat → UInt8) (start size : Nat) :
    (itemDigits digits array start size).length = 2 * size := by
  simp [itemDigits, hexDigits, Nat.mul_comm]

/-- The loops over the elements, from `p` on. -/
def printElements (p : Printed) (array : Nat → UInt8) (precision : Nat) (flags : Flags)
    (size : Nat) : Printed :=
  let digits := if flags.large then largeDigits else smallDigits
  let p := (List.range (precision / size)).foldl (fun p i =>
    (if i ≠ 0 then p.put ' '.toUInt8 else p).item digits array (i * size) size) p
  if precision % size ≠ 0 then
    let p := p.put ' '.toUInt8
    let p := (List.range (size - precision % size)).foldl
      (fun p _ => ((p.out '?'.toUInt8).out '?'.toUInt8).count 2) p
    p.item digits array (precision / size * size) (precision % size)
  else p

theorem flatMap_pair (n : Nat) (ch : UInt8) :
    (List.range n).flatMap (fun _ => [ch, ch]) = List.replicate (2 * n) ch := by
  induction n with
  | zero => rfl
  | succ n ih =>
    rw [List.range_succ, List.flatMap_append, ih, Nat.mul_succ, List.replicate_add]
    rfl

theorem printElements_bytes (p : Printed) (array : Nat → UInt8) (precision : Nat) (flags : Flags)
    (qualifier : FormatQualifier) :
    (printElements p array precision flags qualifier.itemSize).bytes =
      p.bytes ++ arrayElements array precision flags qualifier := by
  have put : ∀ (p : Printed) (ch : UInt8), (p.put ch).bytes = p.bytes ++ [ch] := fun _ _ => rfl
  have full : ∀ (p : Printed) (digits : List UInt8) (size n : Nat),
      ((List.range n).foldl (fun p i =>
        (if i ≠ 0 then p.put ' '.toUInt8 else p).item digits array (i * size) size) p).bytes =
      p.bytes ++ (List.range n).flatMap fun i =>
        (if i ≠ 0 then [' '.toUInt8] else []) ++ itemDigits digits array (i * size) size := by
    intro p digits size n
    refine foldl_bytes (fun p i => ?_) p _
    rw [item_bytes]
    split <;> simp [put]
  have unknown : ∀ (p : Printed) (n : Nat), ((List.range n).foldl
      (fun p _ => ((p.out '?'.toUInt8).out '?'.toUInt8).count 2) p).bytes =
      p.bytes ++ List.replicate (2 * n) '?'.toUInt8 := by
    intro p n
    rw [← flatMap_pair]
    refine foldl_bytes (fun p _ => ?_) p _
    simp [Printed.out, Printed.count]
  unfold printElements arrayElements
  dsimp only
  split
  · rw [item_bytes, unknown, put, full]
    simp only [List.append_assoc]
  · exact full ..

theorem vprintfArray_bytes (array : Nat → UInt8) (fieldWidth : Int) (precision : Nat)
    (flags : Flags) (qualifier : FormatQualifier) :
    (vprintfArray array fieldWidth precision flags qualifier).bytes =
      let pad := if fieldWidth > wrapInt (predictedLen qualifier.itemSize precision) then
        wrapInt (fieldWidth - wrapInt (predictedLen qualifier.itemSize precision)) else 0
      if flags.left then
        arrayElements array precision flags qualifier ++ List.replicate pad.toNat ' '.toUInt8
      else List.replicate pad.toNat ' '.toUInt8 ++ arrayElements array precision flags qualifier := by
  have predicted : ∀ r s : Int, r * (s * 2) + (r - 1) = r * (2 * s + 1) - 1 := fun r s => by ring
  have print : vprintfArray array fieldWidth precision flags qualifier =
      let pad := if fieldWidth > wrapInt (predictedLen qualifier.itemSize precision) then
        wrapInt (fieldWidth - wrapInt (predictedLen qualifier.itemSize precision)) else 0
      let p := printElements (if flags.left then Printed.empty
        else Printed.empty.fill pad ' '.toUInt8) array precision flags qualifier.itemSize
      if flags.left then p.fill pad ' '.toUInt8 else p := by
    unfold vprintfArray predictedLen
    rw [if_neg (by omega)]
    dsimp only
    rw [Int.toNat_natCast, predicted]
    rfl
  rw [print]
  dsimp only
  generalize (if fieldWidth > wrapInt (predictedLen qualifier.itemSize precision) then
    wrapInt (fieldWidth - wrapInt (predictedLen qualifier.itemSize precision)) else 0) = pad
  cases flags.left with
  | true =>
    simp only [if_true, Printed.fill_bytes, printElements_bytes, Printed.empty, List.nil_append]
  | false =>
    simp only [Bool.false_eq_true, if_false, Printed.fill_bytes, printElements_bytes,
      Printed.empty, List.nil_append]

theorem arrayElements_length (array : Nat → UInt8) (precision : Nat) (flags : Flags)
    (qualifier : FormatQualifier) :
    (arrayElements array precision flags qualifier).length =
      precision / qualifier.itemSize * (2 * qualifier.itemSize) +
        (precision / qualifier.itemSize - 1) +
        if precision % qualifier.itemSize ≠ 0 then 1 + 2 * qualifier.itemSize else 0 := by
  have pos : 0 < qualifier.itemSize := by cases qualifier <;> decide
  have full : ∀ (digits : List UInt8) (size n : Nat), ((List.range n).flatMap fun i =>
      (if i ≠ 0 then [' '.toUInt8] else []) ++ itemDigits digits array (i * size) size).length =
      n * (2 * size) + (n - 1) := by
    intro digits size n
    induction n with
    | zero => simp
    | succ n ih =>
      rw [List.range_succ, List.flatMap_append, List.length_append, ih,
        Nat.succ_mul n (2 * size)]
      simp only [List.flatMap_cons, List.flatMap_nil, List.append_nil, List.length_append,
        itemDigits_length]
      generalize 2 * size = k
      split <;> simp only [List.length_singleton, List.length_nil] <;> omega
  have lt := Nat.mod_lt precision pos
  unfold arrayElements
  dsimp only
  split
  · simp only [List.length_append, full, List.length_singleton, List.length_replicate,
      itemDigits_length]
    omega
  · rw [full, Nat.add_zero]

def FieldFits (size precision : Nat) (fieldWidth : Int) : Prop :=
  if predictedLen size precision ≤ 2147483647 then
    0 < precision ∧ size ∣ precision ∨ fieldWidth ≤ predictedLen size precision
  else
    fieldWidth ≤ predictedLen size precision - 4294967296 ∨
      predictedLen size precision - 2147483648 ≤ fieldWidth

instance (size precision : Nat) (fieldWidth : Int) :
    Decidable (FieldFits size precision fieldWidth) := by
  unfold FieldFits
  infer_instance

/-- Where `v` is predicted for `u` bytes, the padding wraps in two ways. -/
theorem padded_iff {u v w : Int} (low : -2147483648 ≤ w) (high : w ≤ 2147483647) (le : v ≤ u)
    (nonneg : 0 ≤ u) (short : v < 0 → -100 ≤ v ∧ u ≤ 100) (long : v < 6442450944) :
    u + (if w > wrapInt v then wrapInt (w - wrapInt v) else 0).toNat = max w u ↔
      if v ≤ 2147483647 then v = u ∨ w ≤ v else w ≤ v - 4294967296 ∨ v - 2147483648 ≤ w := by
  by_cases fits : v ≤ 2147483647
  · have same : wrapInt v = v := by
      unfold wrapInt
      omega
    rw [if_pos fits, same]
    unfold wrapInt
    split <;> omega
  · have wrapped : wrapInt v = v - 4294967296 := by
      unfold wrapInt
      omega
    rw [if_neg fits, wrapped]
    unfold wrapInt
    split <;> omega

/-- Exactly when `%q` fills its field. -/
theorem vprintfArray_fills_iff (array : Nat → UInt8) (fieldWidth : Int) (precision : Nat)
    (flags : Flags) (qualifier : FormatQualifier) (low : -2147483648 ≤ fieldWidth)
    (high : fieldWidth ≤ 2147483647) (count : precision ≤ 2147483647) :
    FillsField fieldWidth flags (arrayElements array precision flags qualifier)
        (vprintfArray array fieldWidth precision flags qualifier) ↔
      FieldFits qualifier.itemSize precision fieldWidth := by
  have bytes := vprintfArray_bytes array fieldWidth precision flags qualifier
  have length := arrayElements_length array precision flags qualifier
  dsimp only at bytes
  generalize padded : (if fieldWidth > wrapInt (predictedLen qualifier.itemSize precision) then
    wrapInt (fieldWidth - wrapInt (predictedLen qualifier.itemSize precision)) else 0) = pad at bytes
  have total : (vprintfArray array fieldWidth precision flags qualifier).bytes.length =
      (arrayElements array precision flags qualifier).length + pad.toNat := by
    rw [bytes]
    split <;> simp [Nat.add_comm]
  have fills : FillsField fieldWidth flags (arrayElements array precision flags qualifier)
      (vprintfArray array fieldWidth precision flags qualifier) ↔
      ((arrayElements array precision flags qualifier).length + pad.toNat : Int) =
        max fieldWidth (arrayElements array precision flags qualifier).length := by
    rw [FillsField, total, Nat.cast_add]
    exact and_iff_right ⟨pad.toNat, bytes⟩
  -- for each size the two lengths are linear in the quotient
  have lengths : (predictedLen qualifier.itemSize precision =
      (arrayElements array precision flags qualifier).length ↔
        0 < precision ∧ qualifier.itemSize ∣ precision) ∧
      predictedLen qualifier.itemSize precision ≤
        (arrayElements array precision flags qualifier).length ∧
      (predictedLen qualifier.itemSize precision < 0 →
        -100 ≤ predictedLen qualifier.itemSize precision ∧
          ((arrayElements array precision flags qualifier).length : Int) ≤ 100) ∧
      predictedLen qualifier.itemSize precision < 6442450944 := by
    rw [length]
    unfold predictedLen
    by_cases part : precision % qualifier.itemSize = 0
    · rw [if_neg (not_not.mpr part), if_neg (not_not.mpr part)]
      cases qualifier <;> simp only [FormatQualifier.itemSize] at part ⊢ <;> omega
    · rw [if_pos part, if_pos part]
      cases qualifier <;> simp only [FormatQualifier.itemSize] at part ⊢ <;> omega
  obtain ⟨exact_iff, le, short, long⟩ := lengths
  rw [fills, ← padded, padded_iff low high le (by omega) short long, exact_iff, FieldFits]

theorem vprintfArray_fills_iff_words :
    FillsField 40 {} (arrayElements (fun _ => 171) 12 {} .none)
      (vprintfArray (fun _ => 171) 40 (12 : Nat) {} .none) :=
  (vprintfArray_fills_iff (fun _ => 171) 40 12 {} .none (by decide) (by decide) (by decide)).mpr
    (by decide)

/-- `%5.0q`: six spaces for no element. -/
theorem vprintfArray_overfills :
    (vprintfArray (fun _ => 171) 5 (0 : Nat) {} .none).bytes = List.replicate 6 ' '.toUInt8 ∧
      arrayElements (fun _ => 171) 0 {} .none = [] ∧
      ¬FillsField 5 {} (arrayElements (fun _ => 171) 0 {} .none)
        (vprintfArray (fun _ => 171) 5 (0 : Nat) {} .none) :=
  ⟨by decide, by decide, fun fills => absurd fills.2 (by decide)⟩

end Bytes

end EventHub.Formatio
