import EventHub.Formatio.Length

/-! Calls on a stream, and what the streams of the three kinds make of them. -/

namespace EventHub.Formatio

inductive Call
  | putc (c : Int)
  | puts (s : List UInt8)
  | printf (fmt : List UInt8) (args : VaList)

/-- `none` where a conversion stores its digits through a null pointer. -/
def perform (stream : Stream) : Call → Option Stream
  | .putc c => some (ehStreamPutc stream c)
  | .puts s => some (ehStreamPuts stream s).2
  | .printf fmt args => (ehStreamVprintf stream fmt args).map Prod.snd

/-- The calls, and `eh_stream_finish` after them. -/
def outputs (stream : Stream) (calls : List Call) : Option Stream :=
  (calls.foldlM perform stream).map ehStreamFinish

def Call.bytes : Call → Option (List UInt8)
  | putc c => some [charOf c]
  | puts s => some (s.takeWhile (· ≠ 0))
  | printf fmt args => (formatted args fmt).map Printed.bytes

def Call.Buffered : Call → Prop
  | printf fmt args => ∀ ds, directives args fmt = some ds → ∀ d ∈ ds, d.Buffered args
  | _ => True

def sent : List Call → Option (List UInt8)
  | [] => some []
  | call :: calls => call.bytes.bind fun a => (sent calls).map (a ++ ·)

section Function
variable {size : Nat} {bs : List UInt8} {f : StreamFunction}

/-- Nothing in the cache is due to be written, and the writes were the right ones. -/
structure Cached (size : Nat) (bs : List UInt8) (f : StreamFunction) : Prop where
  sent : f.written.flatten ++ f.cache = bs
  size_eq : f.size = size
  room : f.cache.length < size
  line : '\n'.toUInt8 ∉ f.cache
  writes : ∀ w ∈ f.written, w ≠ [] ∧ w.length ≤ size ∧ '\n'.toUInt8 ∉ w.dropLast

theorem Cached.init (some : 0 < size) : Cached size [] (ehStreamFunctionInit size) :=
  ⟨rfl, rfl, some, List.not_mem_nil, fun _ mem => absurd mem List.not_mem_nil⟩

theorem Cached.flushed (h : Cached size bs f) (last : List UInt8) (short : last.length ≤ 1)
    (some : f.cache ++ last ≠ []) :
    ∀ w ∈ f.written ++ [f.cache ++ last],
      w ≠ [] ∧ w.length ≤ size ∧ '\n'.toUInt8 ∉ w.dropLast := by
  intro w mem
  rcases List.mem_append.mp mem with mem | mem
  · exact h.writes w mem
  · rw [List.mem_singleton.mp mem]
    have room := h.room
    refine ⟨some, by simp; omega, fun newline => h.line ?_⟩
    match last with
    | [] => exact List.dropLast_subset _ (by simpa using newline)
    | [ch] => simpa using newline

theorem Cached.inByte (h : Cached size bs f) (ch : UInt8) :
    Cached size (bs ++ [ch]) (f.inByte ch) := by
  have room := h.room
  have size_eq := h.size_eq
  unfold StreamFunction.inByte
  rw [if_pos (by omega)]
  dsimp only
  split
  · refine ⟨?_, h.size_eq, by simp [StreamFunction.flush]; omega, List.not_mem_nil,
      h.flushed [ch] (by simp) (by simp)⟩
    simp [StreamFunction.flush, ← h.sent]
  · next stays =>
    rw [not_or] at stays
    simp only [List.length_append, List.length_singleton, beq_iff_eq] at stays
    refine ⟨by simp [← h.sent], h.size_eq, by simp; omega, ?_, h.writes⟩
    simp only [List.mem_append, List.mem_singleton, not_or]
    exact ⟨h.line, fun eq => stays.2 eq.symm⟩

theorem Cached.foldl (h : Cached size bs f) (bs' : List UInt8) :
    ∃ f', bs'.foldl streamoutInByte (.function f) = .function f' ∧
      Cached size (bs ++ bs') f' := by
  induction bs' generalizing bs f with
  | nil => exact ⟨f, rfl, by simpa using h⟩
  | cons ch bs' ih =>
    obtain ⟨f', run, cached⟩ := ih (h.inByte ch)
    exact ⟨f', run, by simpa using cached⟩

structure Written (size : Nat) (bs : List UInt8) (f : StreamFunction) : Prop where
  sent : f.written.flatten = bs
  empty : f.cache = []
  writes : ∀ w ∈ f.written, w ≠ [] ∧ w.length ≤ size ∧ '\n'.toUInt8 ∉ w.dropLast

theorem Cached.finish (h : Cached size bs f) : Written size bs f.finish := by
  unfold StreamFunction.finish
  split
  · next some =>
    refine ⟨by simp [StreamFunction.flush, ← h.sent], rfl, ?_⟩
    simpa [StreamFunction.flush] using h.flushed [] (by simp) (by simpa using some)
  · next none =>
    have none : f.cache = [] := not_not.mp none
    exact ⟨by simpa [none] using h.sent, none, h.writes⟩

end Function

section Streams
variable {calls : List Call} {bs : List UInt8}

theorem foldl_noCache (bs : List UInt8) (f : StreamFunctionNoCache) :
    ∃ f', bs.foldl streamoutInByte (.functionNoCache f) = .functionNoCache f' ∧
      f'.written.flatten = f.written.flatten ++ bs := by
  induction bs generalizing f with
  | nil => exact ⟨f, rfl, by simp⟩
  | cons ch bs ih =>
    obtain ⟨f', run, sent⟩ := ih { f with written := f.written ++ [[ch]] }
    exact ⟨f', run, by simpa using sent⟩

theorem perform_eq {stream : Stream} (buffered : ∀ f, stream ≠ .functionNoCache f) (call : Call) :
    perform stream call = call.bytes.map fun bs => bs.foldl streamoutInByte stream := by
  cases call with
  | putc c => rfl
  | puts s =>
    cases stream with
    | functionNoCache f => exact absurd rfl (buffered f)
    | function f => rfl
    | memory m => rfl
  | printf fmt args =>
    rw [perform, ehStreamVprintf, streamoutVprintf, Call.bytes, Option.map_map, Option.map_map]
    rfl

theorem buffered_foldl {stream : Stream} (buffered : ∀ f, stream ≠ .functionNoCache f)
    (bs : List UInt8) : ∀ f, bs.foldl streamoutInByte stream ≠ .functionNoCache f := by
  induction bs generalizing stream with
  | nil => exact buffered
  | cons ch bs ih =>
    refine ih fun f => ?_
    cases stream with
    | functionNoCache g => exact absurd rfl (buffered g)
    | function g => exact Stream.noConfusion
    | memory m => exact Stream.noConfusion

theorem foldlM_perform {stream : Stream} (buffered : ∀ f, stream ≠ .functionNoCache f) :
    calls.foldlM perform stream =
      (sent calls).map fun bs => bs.foldl streamoutInByte stream := by
  induction calls generalizing stream with
  | nil => rfl
  | cons call calls ih =>
    rw [List.foldlM_cons, perform_eq buffered, sent]
    cases call.bytes with
    | none => rfl
    | some bs =>
      rw [Option.map_some, Option.bind_some, Option.map_map]
      refine (ih (buffered_foldl buffered bs)).trans ?_
      simp only [Function.comp_def, List.foldl_append]

theorem perform_noCache (f : StreamFunctionNoCache) (call : Call) :
    call.bytes = none ∧ perform (.functionNoCache f) call = none ∨
    ∃ bs f', call.bytes = some bs ∧
      perform (.functionNoCache f) call = some (.functionNoCache f') ∧
      f'.written.flatten = f.written.flatten ++ bs := by
  cases call with
  | putc c => exact .inr ⟨[charOf c], _, rfl, rfl, by simp⟩
  | puts s => exact .inr ⟨_, _, rfl, rfl, by simp⟩
  | printf fmt args =>
    rw [perform, ehStreamVprintf, streamoutVprintf, Call.bytes, Option.map_map]
    cases formatted args fmt with
    | none => exact .inl ⟨rfl, rfl⟩
    | some p =>
      obtain ⟨f', run, sent⟩ := foldl_noCache p.bytes f
      exact .inr ⟨p.bytes, f', rfl, congrArg some run, sent⟩

theorem foldlM_noCache (calls : List Call) (f : StreamFunctionNoCache) :
    sent calls = none ∧ calls.foldlM perform (.functionNoCache f) = none ∨
    ∃ bs f', sent calls = some bs ∧
      calls.foldlM perform (.functionNoCache f) = some (.functionNoCache f') ∧
      f'.written.flatten = f.written.flatten ++ bs := by
  induction calls generalizing f with
  | nil => exact .inr ⟨[], f, rfl, rfl, by simp⟩
  | cons call calls ih =>
    rw [List.foldlM_cons, sent]
    rcases perform_noCache f call with ⟨bytes, run⟩ | ⟨bs, f', bytes, run, first⟩
    · exact .inl ⟨by rw [bytes]; rfl, by rw [run]; rfl⟩
    · rw [bytes, run]
      rcases ih f' with ⟨none, run'⟩ | ⟨bs', f'', some, run', rest⟩
      · exact .inl ⟨by rw [none]; rfl, run'⟩
      · exact .inr ⟨bs ++ bs', f'', by rw [some]; rfl, run', by rw [rest, first, List.append_assoc]⟩

theorem Call.bytes_isSome_iff {call : Call} : call.bytes.isSome ↔ call.Buffered := by
  cases call with
  | putc c => simp [Call.bytes, Call.Buffered]
  | puts s => simp [Call.bytes, Call.Buffered]
  | printf fmt args =>
    obtain ⟨ds, scan⟩ := directives_some args fmt
    rw [Call.bytes, Option.isSome_map, formatted_eq scan, printAll_isSome_iff, Call.Buffered, scan]
    simp

theorem sent_isSome_iff : (sent calls).isSome ↔ ∀ call ∈ calls, call.Buffered := by
  induction calls with
  | nil => simp [sent]
  | cons call calls ih =>
    rw [List.forall_mem_cons, ← ih, ← Call.bytes_isSome_iff, sent]
    cases call.bytes <;> simp

end Streams

/-- The calls bring the same bytes to every kind of stream: the concatenated writes of a stream
without cache, those of a cached stream, whatever the size of its cache, and the contents of a
memory stream that is large enough. The cached stream writes between one byte and its cache at a
time, each newline ends its write, and nothing stays behind. -/
def StreamsAgree (calls : List Call) : Prop :=
  ∃ bs f, outputs (.functionNoCache ehStreamFunctionNoCacheInit) calls =
      some (.functionNoCache f) ∧ f.written.flatten = bs ∧
    (∀ size, 0 < size → ∃ f, outputs (.function (ehStreamFunctionInit size)) calls =
      some (.function f) ∧ Written size bs f) ∧
    ∀ byte buf size, bs.length < size →
      ∃ m, outputs (.memory (ehStreamMemoryInit buf size byte)) calls = some (.memory m) ∧
        m.byte = terminated byte buf size bs

/-- The streams agree exactly when no conversion stores its digits through a null pointer. -/
theorem streamsAgree_iff (calls : List Call) :
    StreamsAgree calls ↔ ∀ call ∈ calls, call.Buffered := by
  rw [← sent_isSome_iff]
  rcases foldlM_noCache calls ehStreamFunctionNoCacheInit with
    ⟨bytes, fails⟩ | ⟨bs, f, bytes, run, written⟩
  · rw [bytes]
    refine ⟨?_, fun some => absurd some Bool.false_ne_true⟩
    rintro ⟨bs, f, run, -⟩
    rw [outputs, fails] at run
    cases run
  · rw [bytes]
    refine ⟨fun _ => rfl, fun _ => ⟨bs, { f with finished := f.finished + 1 },
      by rw [outputs, run]; rfl, written, fun size some => ?_, fun byte buf size large => ?_⟩⟩
    · obtain ⟨f', fold, cached⟩ := (Cached.init some).foldl bs
      refine ⟨f'.finish, ?_, cached.finish⟩
      rw [outputs, foldlM_perform (fun _ => Stream.noConfusion), bytes, Option.map_some, fold]
      rfl
    · obtain ⟨m, fold, filled⟩ := (Filled.init byte buf size).foldl bs
      refine ⟨m.finish, ?_, (filled.finish (by omega)).1⟩
      rw [outputs, foldlM_perform (fun _ => Stream.noConfusion), bytes, Option.map_some, fold]
      rfl

def half : VaList :=
  ⟨fun _ => ⟨0, 0.5, none, fun _ => 0⟩, fun _ _ => false, fun _ => ⟨0, 0, false⟩⟩

/-- `%.17f` of 0.5 needs 17 digits; without a buffer for them no stream gets to its end. -/
theorem streams_differ : ¬StreamsAgree [.printf (bytesOf "%.17f") half] := by
  rintro ⟨bs, f, run, -⟩
  have fails : formatted half (bytesOf "%.17f") = none := by decide +kernel
  rw [outputs, List.foldlM_cons, perform, ehStreamVprintf, streamoutVprintf, fails] at run
  cases run

end EventHub.Formatio
