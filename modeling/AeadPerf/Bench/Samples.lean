/-
# `Bench.Samples` — the benchmark program and its file of samples

`main` of `bench_ciphers.c` sets up the arguments of the scalar cipher and calls
`collect_samples`, which opens the file of results, makes one measurement to warm up, and then
one measurement for each of the 9604 rows of the file.  A measurement is `measure_time` of
`Bench.Timer`: 100 calls of the cipher between two readings of the clock.

    name,size,time
    chacha_base/1,1,<time between the two readings / 100>
    …

The clock is any sequence of readings.  A file is a name and its characters; a write at an
offset replaces what is there.  Opening the file may fail, and so may each write, or it stops
short; the code does not look (`main_collects`).  The file of results is opened with `O_CREAT`
and without `O_TRUNC`: where an older file is longer than the new rows, its end stays.

What a row holds of `result` is its decimal digits, so the rows of a file can be told from its
text (`csvText_begins`).
-/
import AeadPerf.Bench.Timer
import AeadPerf.ChaCha.Session

namespace AeadPerf.Bench

open Words Checked KeyStream

/-! ## The constants -/

/-- `SAMPLE_SIZE`. -/
def sampleSize : Int := 9604

/-- `enum cipher_code`. -/
inductive CipherCode where
  | chacha20Base
  | chacha20_128
  | chacha20_256
  | chacha20_512
  | aesCtrBase
  | aesAesni
  | chacha20PolyBase
  | chacha20Poly128
  | chacha20Poly256
  | chacha20Poly512
  | aesGcmBase
  | aesGcmAesni
  deriving DecidableEq, Repr

/-- `enum measure_type`. -/
inductive MeasureType where
  | cycles
  | nanosec
  deriving DecidableEq, Repr

/-- `cipher_name`, which has no entry for `CHACHA20_512`. -/
def cipherName : Array String := #["chacha_base", "chacha_128", "chacha_256", "aes_ctr_base",
  "aes_aesni", "chacha_poly_base", "chacha_poly_128", "chacha_poly_256", "chacha_poly_512",
  "aes_gcm_base", "aes_gcm_aesni"]

/-- The value of a code. -/
def CipherCode.val : CipherCode → Nat
  | .chacha20Base => 0
  | .chacha20_128 => 1
  | .chacha20_256 => 2
  | .chacha20_512 => 3
  | .aesCtrBase => 4
  | .aesAesni => 5
  | .chacha20PolyBase => 6
  | .chacha20Poly128 => 7
  | .chacha20Poly256 => 8
  | .chacha20Poly512 => 9
  | .aesGcmBase => 10
  | .aesGcmAesni => 11

/-- `nonce`, of which `chacha20_encryption` reads the first twelve bytes. -/
def nonce : Vector Byte 16 := #v[0x00, 0x00, 0x09, 0x00, 0x27, 0x20, 0xfd, 0x63, 0x6f, 0x75, 0xde,
  0x14, 0x00, 0x00, 0x00, 0x01]

def key : Vector Byte 32 := #v[0xec, 0x3a, 0xce, 0x7d, 0x30, 0x57, 0xe0, 0xac, 0x7d, 0xef, 0xe1, 0x79,
  0xe8, 0x88, 0x17, 0x47, 0xcf, 0xfc, 0xd7, 0x42, 0xee, 0x11, 0x93, 0xae, 0x86, 0xf9, 0x22, 0x1b,
  0x53, 0xca, 0xa7, 0xf8]

/-- `RESULTS_HEADER`. -/
def resultsHeader : List Char := "name,size,time\n".toList

/-! ## Files -/

/-- The files there are, by name. -/
abbrev Files := String → Option (List Char)

/-- A descriptor: the name of the file, where the next write goes, and how many there were. -/
structure Descriptor where
  name : String
  offset : Nat
  writes : Nat
  deriving DecidableEq, Repr

/-- `text` written over `content` at the offset. -/
def overwrite (offset : Nat) (text content : List Char) : List Char :=
  content.take offset ++ text ++ content.drop (offset + text.length)

/-- `open(fname, O_WRONLY | O_CREAT, 0644)`, which fails unless `ok`. -/
def openFile (ok : Bool) (fname : String) (fs : Files) : Option Descriptor × Files :=
  if ok then (some ⟨fname, 0, 0⟩, Function.update fs fname (some ((fs fname).getD [])))
  else (none, fs)

/-- `dprintf(fd, …)` of what the format gives, which does nothing without a descriptor.  Of the
`i`-th text only `lands i` characters get to the file, if the write fails or stops short. -/
def dprintf (lands : Nat → Nat) (fd : Option Descriptor) (text : List Char) (fs : Files) :
    Option Descriptor × Files :=
  match fd with
  | none => (none, fs)
  | some d =>
      let landed := text.take (lands d.writes)
      (some { d with offset := d.offset + landed.length, writes := d.writes + 1 },
        Function.update fs d.name ((fs d.name).map (overwrite d.offset landed)))

/-! ## The code -/

/-- `struct chacha20_args`, with what its pointers lead to. -/
structure ChaCha20Args where
  inp : Array Byte
  out : Array Byte
  k : Vector Byte 32
  n : Vector Byte 16
  c : Word
  inlen : CInt

/-- What the measured function works on: the arguments, how often the clock was read, and a
fault, if the function has stopped at one. -/
structure World where
  args : ChaCha20Args
  clock : Nat
  fault : Option Fault

/-- `bench_chacha_base`. -/
def benchChachaBase (_ : Unit) (w : World) : World :=
  match w.fault with
  | some _ => w
  | none =>
      let ctx := w.args
      match ChaCha.chacha20Encryption ctx.inp (Sink.fresh ctx.out) ctx.k
        (Vector.ofFn fun i : Fin 12 => ctx.n[i.val]) ctx.c ctx.inlen with
      | .ok out => { w with args := { ctx with out := out.bytes } }
      | .error e => { w with fault := some e }

/-- `bench_readtsc_start` and `bench_readtsc_end`: the next of the readings. -/
def benchReadtsc (readings : Nat → BitVec 64) (w : World) : BitVec 64 × World :=
  (readings w.clock, { w with clock := w.clock + 1 })

/-- `set_file_size`. -/
def setFileSize (code : CipherCode) (w : World) (ptlen : CInt) : World :=
  match code with
  | .chacha20Base => { w with args := { w.args with inlen := ptlen } }
  | _ => w

/-- `snprintf(fname, 64, …)`. -/
def csvName (name : String) : MeasureType → String
  | .cycles => String.ofList (("bench/results/data/" ++ name ++ "_cycles.csv").toList.take 63)
  | .nanosec => String.ofList (("bench/results/data/" ++ name ++ "_nsec.csv").toList.take 63)

/-- `create_csv`. -/
def createCsv (lands : Nat → Nat) (ok : Bool) (code : CipherCode) (measure : MeasureType) (fs : Files) :
    Run (Option Descriptor × Files) := do
  let name ← load cipherName code.val
  let (fd, fs) := openFile ok (csvName name measure) fs
  pure (dprintf lands fd resultsHeader fs)

/-- The row of a sample: `%s/%d,%d,%lu\n`. -/
def row (name : String) (fileSize : Int) (result : BitVec 64) : List Char :=
  (name ++ "/" ++ toString fileSize ++ "," ++ toString fileSize ++ "," ++ toString result.toNat
    ++ "\n").toList

section Collect

variable (readings : Nat → BitVec 64) (lands : Nat → Nat)

/-- `measure_time(100, 0, cipher_func, cipher_args, bench_readtsc_start, bench_readtsc_end)`. -/
def measure (m : Machine World) : Run (Option (BitVec 64) × Machine World) :=
  measureTime 100 0 benchChachaBase () (benchReadtsc readings) (benchReadtsc readings) m

/-- The body of the loop of `collect_samples`, up to its test. -/
def samplePass (code : CipherCode) (fileSize : CInt) (st : Machine World × Option Descriptor × Files) :
    Run (Machine World × Option Descriptor × Files) := do
  let (m, fd, fs) := st
  let (result, m) ← measure readings m
  let name ← load cipherName code.val
  -- there is a result: 100 is not zero
  let (fd, fs) := dprintf lands fd (row name fileSize.val (result.getD 0)) fs
  pure (m, fd, fs)

/-- `collect_samples`; `samples_collected` counts the passes. -/
def collectSamples (ok : Bool) (code : CipherCode) (measureType : MeasureType) (m : Machine World)
    (fs : Files) : Run (Machine World × Files) := do
  let (fd, fs) ← createCsv lands ok code measureType fs
  let fileSize : CInt := ⟨1, by decide⟩
  let m := { m with world := setFileSize code m.world fileSize }
  let (_, m) ← measure readings m
  let (m, _, fs) ← doLoop 0 sampleSize (samplePass readings lands code fileSize) (m, fd, fs)
  pure (m, fs)

/-- `main`: the buffers and `arx_args.inlen` hold anything at first. -/
def benchMain (ok : Bool) (fileBuffer outBuffer : Vector Byte 64000) (inlen : CInt) (fs : Files) :
    Run (Int × Machine World × Files) := do
  let arxArgs : ChaCha20Args := ⟨fileBuffer.toArray, outBuffer.toArray, key, nonce, 1, inlen⟩
  let (m, fs) ← collectSamples readings lands ok .chacha20Base .cycles ⟨⟨arxArgs, 0, none⟩, []⟩ fs
  pure (0, m, fs)

end Collect

/-! ## The measured function -/

namespace ChaCha20Args

/-- The arguments fit each other. -/
structure Valid (a : ChaCha20Args) : Prop where
  nonneg : 0 ≤ a.inlen.val
  fitsInp : a.inlen.val.toNat ≤ a.inp.size
  fitsOut : a.inlen.val.toNat ≤ a.out.size

/-- The keystream of a call. -/
def keyStream (a : ChaCha20Args) : Nat → Byte :=
  Rfc8439.keyStream a.k a.c (Vector.ofFn fun i : Fin 12 => a.n[i.val])

/-- The arguments after a call. -/
def encrypted (a : ChaCha20Args) : ChaCha20Args :=
  { a with out := ((Sink.fresh a.out).xored a.inp a.keyStream 0 a.inlen.val.toNat).bytes }

theorem Valid.encrypted {a : ChaCha20Args} (ha : a.Valid) : a.encrypted.Valid where
  nonneg := ha.nonneg
  fitsInp := ha.fitsInp
  fitsOut := by
    have hsize : a.encrypted.out.size = a.out.size := Sink.size_xored _ _ _ _ _
    rw [hsize]
    exact ha.fitsOut

/-- A second call writes the same bytes. -/
theorem encrypted_encrypted (a : ChaCha20Args) : a.encrypted.encrypted = a.encrypted := by
  have hout : a.encrypted.encrypted.out = a.encrypted.out := by
    refine Array.ext_getElem? ?_
    intro i
    by_cases hi : i < a.inlen.val.toNat ∧ i < a.out.size
    · have hsize : i < (Sink.fresh a.encrypted.out).bytes.size := by
        have hsize : a.encrypted.out.size = a.out.size := Sink.size_xored _ _ _ _ _
        exact hsize ▸ hi.2
      exact (Sink.getElem?_xored_mem _ _ _ (Nat.zero_le i) hi.1 hsize).trans
        (Sink.getElem?_xored_mem _ _ _ (Nat.zero_le i) hi.1 hi.2).symm
    · rw [not_and_or] at hi
      rcases hi with hi | hi
      · exact Sink.getElem?_xored_of_not _ _ _ fun h => hi h.2
      · have hsize : a.encrypted.out.size = a.out.size := Sink.size_xored _ _ _ _ _
        have hsize' : a.encrypted.encrypted.out.size = a.encrypted.out.size := Sink.size_xored _ _ _ _ _
        rw [Array.getElem?_eq_none (by omega), Array.getElem?_eq_none (by omega)]
  calc a.encrypted.encrypted = { a.encrypted with out := a.encrypted.encrypted.out } := rfl
    _ = a.encrypted := by rw [hout]

end ChaCha20Args

/-- A call encrypts, and stops at no fault. -/
theorem benchChachaBase_eq {w : World} (hfault : w.fault = none) (ha : w.args.Valid) :
    benchChachaBase () w = { w with args := w.args.encrypted } := by
  let m : Message := ⟨w.args.inp, w.args.out, w.args.inlen, ha.nonneg, ha.fitsInp, ha.fitsOut⟩
  have hrun : ChaCha.chacha20Encryption w.args.inp (Sink.fresh w.args.out) w.args.k
      (Vector.ofFn fun i : Fin 12 => w.args.n[i.val]) w.args.c w.args.inlen
        = .ok ((Sink.fresh w.args.out).xored w.args.inp w.args.keyStream 0 w.args.inlen.val.toNat) := by
    have hmessage := ChaCha.encryption64_eq ChaCha.chacha20Expansion w.args.k
      (Vector.ofFn fun i : Fin 12 => w.args.n[i.val]) w.args.c m
    rw [ChaCha.blockStream_eq] at hmessage
    exact hmessage
  rw [benchChachaBase, hfault]
  dsimp only
  rw [hrun]
  rfl

/-- Any calls, one at least, leave what one leaves. -/
theorem iterate_call {m : Machine World} (hfault : m.world.fault = none) (ha : m.world.args.Valid) (t : Nat) :
    (Machine.call benchChachaBase ())^[t + 1] m
      = ⟨{ m.world with args := m.world.args.encrypted }, m.trace ++ List.replicate (t + 1) .call⟩ := by
  have hworld : ((Machine.call benchChachaBase ())^[t + 1] m).world
      = { m.world with args := m.world.args.encrypted } := by
    induction t with
    | zero => exact benchChachaBase_eq hfault ha
    | succ t ih =>
        have hagain := benchChachaBase_eq (w := { m.world with args := m.world.args.encrypted }) hfault
          ha.encrypted
        rw [Function.iterate_succ_apply', Machine.call, ih, hagain, ChaCha20Args.encrypted_encrypted]
  have htrace := Machine.trace_iterate_call benchChachaBase () (t + 1) m
  rw [← hworld, ← htrace]

/-! ## A measurement -/

section Measure

variable (readings : Nat → BitVec 64)

/-- What the measurement from the `c`-th reading on returns. -/
def elapsed (c : Nat) : BitVec 64 := (readings (c + 1) - readings c) / 100

/-- The calls and readings of a measurement. -/
def events (c : Nat) : List Event :=
  .started (readings c) :: (List.replicate 100 .call ++ [.ended (readings (c + 1))])

/-- The machine after a measurement. -/
def measured (m : Machine World) : Machine World :=
  ⟨{ m.world with args := m.world.args.encrypted, clock := m.world.clock + 2 },
    m.trace ++ events readings m.world.clock⟩

theorem measure_eq {m : Machine World} (hfault : m.world.fault = none) (ha : m.world.args.Valid) :
    measure readings m = .ok (some (elapsed readings m.world.clock), measured readings m) := by
  have hstart : startReading benchChachaBase () (benchReadtsc readings) 0 m
      = (readings m.world.clock,
          ⟨{ m.world with clock := m.world.clock + 1 }, m.trace ++ [.started (readings m.world.clock)]⟩) :=
    rfl
  have hcalls := iterate_call (m := (startReading benchChachaBase () (benchReadtsc readings) 0 m).2)
    hfault ha 99
  have hend : endReading benchChachaBase () (benchReadtsc readings) (benchReadtsc readings) 100 0 m
      = (readings (m.world.clock + 1), measured readings m) := by
    have htimed : timedCalls 100 0 = 99 + 1 := rfl
    rw [endReading, htimed, hcalls, hstart]
    simp [Machine.read, benchReadtsc, measured, events]
  have hrun := measureTime_eq benchChachaBase () (benchReadtsc readings) (benchReadtsc readings) m
    (n := 100) (k := 0) (by decide) (by decide) (by decide)
  rw [hend, hstart] at hrun
  exact hrun

/-- Measurements one after the other, where one has been made before. -/
theorem iterate_measured {m : Machine World} (ha : m.world.args.encrypted = m.world.args) (j : Nat) :
    (measured readings)^[j] m = ⟨{ m.world with clock := m.world.clock + 2 * j },
      m.trace ++ (List.range j).flatMap fun i => events readings (m.world.clock + 2 * i)⟩ := by
  induction j with
  | zero => simp
  | succ j ih =>
      rw [Function.iterate_succ_apply', ih, measured, List.range_succ, List.flatMap_append, ha,
        List.append_assoc, List.flatMap_singleton]
      rfl

end Measure

/-! ## The file -/

theorem overwrite_append (t u old : List Char) :
    overwrite t.length u (t ++ old.drop t.length) = (t ++ u) ++ old.drop (t ++ u).length := by
  have hdrop : (t ++ old.drop t.length).drop (t.length + u.length) = old.drop (t ++ u).length := by
    rw [List.drop_append, List.drop_eq_nil_of_le (by omega), List.nil_append, List.drop_drop,
      List.length_append]
    congr 1
    omega
  rw [overwrite, List.take_left, hdrop]

/-- The texts that are written, as far as they get to the file. -/
def landed (lands : Nat → Nat) (ts : List (List Char)) : List Char :=
  (ts.mapIdx fun i t => t.take (lands i)).flatten

theorem landed_concat (lands : Nat → Nat) (ts : List (List Char)) (u : List Char) :
    landed lands (ts ++ [u]) = landed lands ts ++ u.take (lands ts.length) := by
  rw [landed, List.mapIdx_concat, List.flatten_append, List.flatten_singleton, landed]

/-- No write fails or stops short. -/
def Whole (lands : Nat → Nat) (ts : List (List Char)) : Prop :=
  ∀ i t, ts[i]? = some t → t.length ≤ lands i

theorem landed_whole {lands : Nat → Nat} {ts : List (List Char)} (h : Whole lands ts) :
    landed lands ts = ts.flatten := by
  have hsame : ts.mapIdx (fun i t => t.take (lands i)) = ts := by
    refine List.ext_getElem? fun i => ?_
    rw [List.getElem?_mapIdx]
    cases ht : ts[i]? with
    | none => rfl
    | some t => rw [Option.map_some, List.take_of_length_le (h i t ht)]
  rw [landed, hsame]

/-- The file `fname`, if it could be opened, after the texts were written to it from its beginning
on, and the descriptor. -/
def written (lands : Nat → Nat) (ok : Bool) (fname : String) (fs : Files) (ts : List (List Char)) :
    Option Descriptor × Files :=
  if ok then (some ⟨fname, (landed lands ts).length, ts.length⟩,
    Function.update fs fname
      (some (landed lands ts ++ ((fs fname).getD []).drop (landed lands ts).length)))
  else (none, fs)

section Written

variable (lands : Nat → Nat) (ok : Bool) (fname : String) (fs : Files)

theorem openFile_eq : openFile ok fname fs = written lands ok fname fs [] := by
  cases ok <;> rfl

theorem written_self (ts : List (List Char)) :
    (written lands true fname fs ts).2 fname
      = some (landed lands ts ++ ((fs fname).getD []).drop (landed lands ts).length) := by
  simp [written]

theorem dprintf_written (ts : List (List Char)) (u : List Char) :
    dprintf lands (written lands ok fname fs ts).1 u (written lands ok fname fs ts).2
      = written lands ok fname fs (ts ++ [u]) := by
  cases ok with
  | false => rfl
  | true =>
      simp only [written, if_true, dprintf, Function.update_self, Option.map_some, overwrite_append,
        Function.update_idem, landed_concat, List.length_append, List.length_singleton]

theorem createCsv_eq {code : CipherCode} {name : String} (hname : cipherName[code.val]? = some name)
    (measureType : MeasureType) :
    createCsv lands ok code measureType fs
      = .ok (written lands ok (csvName name measureType) fs [resultsHeader]) := by
  obtain ⟨hlt, hget⟩ := Array.getElem?_eq_some_iff.mp hname
  have hheader := dprintf_written lands ok (csvName name measureType) fs [] resultsHeader
  rw [List.nil_append] at hheader
  rw [createCsv, load_ok hlt, ok_bind, hget, openFile_eq lands]
  exact congrArg Except.ok hheader

end Written

/-- The lines of a file of results, … -/
def csvLines (name : String) (results : List (BitVec 64)) : List (List Char) :=
  resultsHeader :: results.map (row name 1)

/-- … and its text. -/
def csvText (name : String) (results : List (BitVec 64)) : List Char :=
  resultsHeader ++ results.flatMap (row name 1)

theorem flatten_csvLines (name : String) (results : List (BitVec 64)) :
    (csvLines name results).flatten = csvText name results := by
  rw [csvLines, List.flatten_cons, csvText, List.flatMap_def]

/-- A row, up to the digits of its result, then these, then the end of the line. -/
theorem row_eq (name : String) (result : BitVec 64) :
    row name 1 result = name.toList ++ "/1,1,".toList ++ (Nat.repr result.toNat).toList ++ ['\n'] := by
  have hone : toString (1 : Int) = "1" := rfl
  simp only [row, hone, String.toList_append, List.append_assoc]
  rfl

theorem newline_notMem_repr (n : Nat) : '\n' ∉ (Nat.repr n).toList := by
  intro hmem
  rw [Nat.toList_repr] at hmem
  have hdigit := Nat.isDigit_of_mem_toDigits (b := 10) (by decide) (by decide) hmem
  exact absurd hdigit (by decide)

/-- Two texts that begin with a line are equal in the line and in the rest. -/
theorem line_append_inj {l l' t t' : List Char} (hl : '\n' ∉ l) (hl' : '\n' ∉ l')
    (h : l ++ '\n' :: t = l' ++ '\n' :: t') : l = l' ∧ t = t' := by
  induction l generalizing l' with
  | nil =>
      cases l' with
      | nil => exact ⟨rfl, (List.cons.inj h).2⟩
      | cons c l' => exact absurd ((List.cons.inj h).1 ▸ List.mem_cons_self) hl'
  | cons c l ih =>
      cases l' with
      | nil => exact absurd ((List.cons.inj h).1 ▸ List.mem_cons_self) hl
      | cons c' l' =>
          obtain ⟨rfl, hrest⟩ := List.cons.inj h
          obtain ⟨rfl, ht⟩ := ih (fun hmem => hl (List.mem_cons_of_mem c hmem))
            (fun hmem => hl' (List.mem_cons_of_mem c hmem)) hrest
          exact ⟨rfl, ht⟩

/-- Two rows that begin two equal texts are one row, and the rests are equal. -/
theorem row_append_inj {name : String} {r r' : BitVec 64} {t t' : List Char}
    (h : row name 1 r ++ t = row name 1 r' ++ t') : r = r' ∧ t = t' := by
  rw [row_eq, row_eq] at h
  simp only [List.append_assoc, List.append_cancel_left_eq, List.singleton_append] at h
  obtain ⟨hdigits, ht⟩ := line_append_inj (newline_notMem_repr r.toNat) (newline_notMem_repr r'.toNat) h
  rw [Nat.toList_repr, Nat.toList_repr] at hdigits
  have hnat : r.toNat = r'.toNat := by
    rw [← @Nat.ofDigitChars_ten_toDigits r.toNat, hdigits, Nat.ofDigitChars_ten_toDigits]
  exact ⟨BitVec.eq_of_toNat_eq hnat, ht⟩

theorem row_ne_nil (name : String) (r : BitVec 64) : row name 1 r ≠ [] := by
  rw [row_eq]
  exact List.append_ne_nil_of_right_ne_nil _ (List.cons_ne_nil _ _)

/-- A text of rows tells the results in it, whatever stands behind them. -/
theorem csvText_begins {name : String} {rs rs' : List (BitVec 64)} {rest : List Char}
    (h : csvText name rs ++ rest = csvText name rs') : rs <+: rs' := by
  rw [csvText, csvText, List.append_assoc, List.append_cancel_left_eq] at h
  induction rs generalizing rs' with
  | nil => exact List.nil_prefix
  | cons r rs ih =>
      rw [List.flatMap_cons, List.append_assoc] at h
      cases rs' with
      | nil => exact absurd (List.append_eq_nil_iff.mp h).1 (row_ne_nil name r)
      | cons r' rs' =>
          rw [List.flatMap_cons] at h
          obtain ⟨rfl, hrest⟩ := row_append_inj h
          exact (List.prefix_cons_inj r).mpr (ih hrest)

/-- The results of `n` measurements from the `c`-th reading on. -/
def results (readings : Nat → BitVec 64) (c n : Nat) : List (BitVec 64) :=
  (List.range n).map fun i => elapsed readings (c + 2 * i)

theorem csvLines_succ (name : String) (readings : Nat → BitVec 64) (c n : Nat) :
    csvLines name (results readings c n) ++ [row name 1 (elapsed readings (c + 2 * n))]
      = csvLines name (results readings c (n + 1)) := by
  simp [csvLines, results, List.range_succ]

/-! ## The samples -/

section Collect

variable (readings : Nat → BitVec 64) (lands : Nat → Nat) (ok : Bool) {code : CipherCode} {name : String}

/-- One pass of the loop. -/
theorem samplePass_eq (hname : cipherName[code.val]? = some name) {m : Machine World}
    (hfault : m.world.fault = none) (ha : m.world.args.Valid) (fname : String) (fs : Files)
    (ts : List (List Char)) :
    samplePass readings lands code ⟨1, by decide⟩ (m, written lands ok fname fs ts)
      = .ok (measured readings m,
          written lands ok fname fs (ts ++ [row name 1 (elapsed readings m.world.clock)])) := by
  obtain ⟨hlt, hget⟩ := Array.getElem?_eq_some_iff.mp hname
  have hwrite := dprintf_written lands ok fname fs ts (row name 1 (elapsed readings m.world.clock))
  simp only [samplePass, measure_eq readings hfault ha, ok_bind, load_ok hlt, hget, Option.getD_some,
    hwrite, pure_eq_ok]

/-- The calls and readings of `n` measurements from the `c`-th reading on. -/
def allEvents (c n : Nat) : List Event :=
  (List.range n).flatMap fun i => events readings (c + 2 * i)

theorem allEvents_succ (c n : Nat) :
    allEvents readings c (n + 1) = events readings c ++ allEvents readings (c + 2) n := by
  have hnext : ∀ i, c + 2 * (i + 1) = c + 2 + 2 * i := by
    intro i
    omega
  simp only [allEvents, List.range_succ_eq_map, List.flatMap_cons, List.flatMap_map, hnext]
  rfl

/-- The loop of `collect_samples`, after the warm-up. -/
theorem samples_eq (hname : cipherName[code.val]? = some name) {m : Machine World}
    (hfault : m.world.fault = none) (ha : m.world.args.Valid)
    (hsame : m.world.args.encrypted = m.world.args) (fname : String) (fs : Files) :
    doLoop 0 sampleSize (samplePass readings lands code ⟨1, by decide⟩)
        (m, written lands ok fname fs [resultsHeader])
      = .ok ((measured readings)^[9604] m,
          written lands ok fname fs (csvLines name (results readings m.world.clock 9604))) := by
  refine doLoop_eq (i := 0) (fun j => ((measured readings)^[j] m,
    written lands ok fname fs (csvLines name (results readings m.world.clock j)))) (by decide) (by decide)
    rfl ?_
  intro j _
  have hiterate := iterate_measured readings hsame j
  have hpass := samplePass_eq readings lands ok hname (m := (measured readings)^[j] m)
    (by rw [hiterate]; exact hfault) (by rw [hiterate]; exact ha) fname fs
    (csvLines name (results readings m.world.clock j))
  rw [hpass, ← Function.iterate_succ_apply' (measured readings), ← csvLines_succ, hiterate]

theorem setFileSize_keeps (code : CipherCode) (w : World) (ptlen : CInt) :
    (setFileSize code w ptlen).clock = w.clock ∧ (setFileSize code w ptlen).fault = w.fault := by
  cases code with
  | _ => exact ⟨rfl, rfl⟩

/-- **`collect_samples`**: for every cipher that has a name, clock and files, there is no fault, and
the lines for all measurements but the first are written, as far as the file can be opened and the
writes get there. -/
theorem collectSamples_eq (hname : cipherName[code.val]? = some name) (measureType : MeasureType)
    {m : Machine World} (hfault : m.world.fault = none)
    (ha : (setFileSize code m.world ⟨1, by decide⟩).args.Valid) (fs : Files) :
    collectSamples readings lands ok code measureType m fs = .ok
      (⟨⟨(setFileSize code m.world ⟨1, by decide⟩).args.encrypted, m.world.clock + 19210, none⟩,
        m.trace ++ allEvents readings m.world.clock 9605⟩,
        (written lands ok (csvName name measureType) fs
          (csvLines name (results readings (m.world.clock + 2) 9604))).2) := by
  obtain ⟨hclock, hnone⟩ := setFileSize_keeps code m.world ⟨1, by decide⟩
  let m₀ : Machine World := { m with world := setFileSize code m.world ⟨1, by decide⟩ }
  have hwarm : measure readings m₀ = _ := measure_eq readings (hnone.trans hfault) ha
  have hsame : (measured readings m₀).world.args.encrypted = (measured readings m₀).world.args :=
    ChaCha20Args.encrypted_encrypted m₀.world.args
  have hloop := samples_eq readings lands ok hname (m := measured readings m₀) (hnone.trans hfault)
    ha.encrypted hsame (csvName name measureType) fs
  have hend := iterate_measured readings hsame 9604
  have hcount : (measured readings m₀).world.clock = m.world.clock + 2 := congrArg (· + 2) hclock
  rw [hcount] at hloop hend
  have htrace : (measured readings m₀).trace ++ allEvents readings (m.world.clock + 2) 9604
      = m.trace ++ allEvents readings m.world.clock 9605 := by
    have hsucc : allEvents readings m.world.clock 9605
        = events readings m.world.clock ++ allEvents readings (m.world.clock + 2) 9604 :=
      allEvents_succ readings m.world.clock 9604
    have hfirst : (measured readings m₀).trace = m.trace ++ events readings m.world.clock :=
      congrArg (fun c => m.trace ++ events readings c) hclock
    rw [hsucc, hfirst, List.append_assoc]
  have hrun : collectSamples readings lands ok code measureType m fs
      = .ok ((measured readings)^[9604] (measured readings m₀),
          (written lands ok (csvName name measureType) fs
            (csvLines name (results readings (m.world.clock + 2) 9604))).2) := by
    rw [collectSamples, createCsv_eq lands ok fs hname, ok_bind]
    change (measure readings m₀ >>= _) = _
    rw [hwarm, ok_bind]
    change (doLoop 0 sampleSize _ (_, written lands ok (csvName name measureType) fs [resultsHeader])
      >>= _) = _
    rw [hloop]
    rfl
  have hlast : (measured readings)^[9604] (measured readings m₀)
      = ⟨⟨m₀.world.args.encrypted, m.world.clock + 19210, none⟩,
          m.trace ++ allEvents readings m.world.clock 9605⟩ := by
    rw [hend, ← htrace]
    refine congrArg₂ Machine.mk (congrArg₂ (World.mk m₀.world.args.encrypted) ?_ ?_) rfl
    · exact Nat.add_assoc m.world.clock 2 (2 * 9604)
    · exact hnone.trans hfault
  rw [hrun, hlast]

end Collect

/-! ## The program -/

/-- The arguments that `main` gives to the cipher, once `set_file_size` has set the length. -/
def arxArgs (fileBuffer outBuffer : Vector Byte 64000) : ChaCha20Args :=
  ⟨fileBuffer.toArray, outBuffer.toArray, key, nonce, 1, ⟨1, by decide⟩⟩

theorem arxArgs_valid (fileBuffer outBuffer : Vector Byte 64000) : (arxArgs fileBuffer outBuffer).Valid where
  nonneg := Int.zero_le_ofNat 1
  fitsInp := by
    change 1 ≤ fileBuffer.toArray.size
    simp
  fitsOut := by
    change 1 ≤ outBuffer.toArray.size
    simp

/-- The cipher writes the first byte of the buffer for the output and no other. -/
theorem encrypted_arxArgs (fileBuffer outBuffer : Vector Byte 64000) :
    (arxArgs fileBuffer outBuffer).encrypted.out
      = outBuffer.toArray.set! 0 (fileBuffer[0] ^^^ (arxArgs fileBuffer outBuffer).keyStream 0) := by
  have hone : (arxArgs fileBuffer outBuffer).encrypted.out
      = ((Sink.fresh outBuffer.toArray).xored fileBuffer.toArray (arxArgs fileBuffer outBuffer).keyStream
          0 1).bytes := rfl
  have hsize : 0 < outBuffer.toArray.size := (arxArgs_valid fileBuffer outBuffer).fitsOut
  refine Array.ext_getElem? fun i => ?_
  rw [hone, Array.set!_eq_setIfInBounds, Array.getElem?_setIfInBounds]
  by_cases hi : i = 0
  · rw [hi, Sink.getElem?_xored_mem _ _ _ le_rfl Nat.one_pos hsize, if_pos rfl, if_pos hsize]
    simp
  · rw [if_neg (Ne.symm hi)]
    exact Sink.getElem?_xored_of_not _ _ _ fun h => hi (Nat.lt_one_iff.mp h.2)

/-- The file that `main` writes. -/
def resultsFile : String := "bench/results/data/chacha_base_cycles.csv"

theorem benchMain_eq (readings : Nat → BitVec 64) (lands : Nat → Nat) (ok : Bool)
    (fileBuffer outBuffer : Vector Byte 64000) (inlen : CInt) (fs : Files) :
    benchMain readings lands ok fileBuffer outBuffer inlen fs = .ok (0,
      ⟨⟨(arxArgs fileBuffer outBuffer).encrypted, 19210, none⟩, allEvents readings 0 9605⟩,
      (written lands ok resultsFile fs (csvLines "chacha_base" (results readings 2 9604))).2) := by
  have hname : cipherName[CipherCode.val .chacha20Base]? = some "chacha_base" := rfl
  have hfile : csvName "chacha_base" .cycles = resultsFile := by decide
  let m : Machine World := ⟨⟨⟨fileBuffer.toArray, outBuffer.toArray, key, nonce, 1, inlen⟩, 0, none⟩, []⟩
  have hargs : (setFileSize .chacha20Base m.world ⟨1, by decide⟩).args = arxArgs fileBuffer outBuffer := rfl
  have hvalid := hargs ▸ arxArgs_valid fileBuffer outBuffer
  have hrun := collectSamples_eq readings lands ok hname .cycles (m := m) rfl hvalid fs
  have hclock : m.world.clock = 0 := rfl
  have htrace : m.trace = [] := rfl
  rw [hfile, hargs, hclock, htrace, List.nil_append, Nat.zero_add, Nat.zero_add] at hrun
  rw [benchMain, hrun, ok_bind]
  simp only [pure_eq_ok]

/-- What is in the file of results, with the results `rs` written over the file `old`. -/
structure ResultsIn (lands : Nat → Nat) (name : String) (rs : List (BitVec 64)) (old content : List Char) :
    Prop where
  /-- What got there of the lines, and behind it what an older and longer file has there. -/
  lines : content = landed lands (csvLines name rs)
    ++ old.drop (landed lands (csvLines name rs)).length
  /-- It is nothing else if and only if the older file is not longer. -/
  only_iff : content = landed lands (csvLines name rs)
    ↔ old.length ≤ (landed lands (csvLines name rs)).length
  /-- If no write fails or stops short, all lines got there, … -/
  whole : Whole lands (csvLines name rs) → landed lands (csvLines name rs) = csvText name rs
  /-- … and however the file is read as a file of results, these come first. -/
  begins : Whole lands (csvLines name rs) → ∀ rs', content = csvText name rs' → rs <+: rs'

theorem resultsIn_landed (lands : Nat → Nat) (name : String) (rs : List (BitVec 64)) (old : List Char) :
    ResultsIn lands name rs old
      (landed lands (csvLines name rs) ++ old.drop (landed lands (csvLines name rs)).length) where
  lines := rfl
  only_iff := by rw [List.append_right_eq_self, List.drop_eq_nil_iff]
  whole h := (landed_whole h).trans (flatten_csvLines name rs)
  begins h rs' hread := by
    rw [landed_whole h, flatten_csvLines] at hread
    exact csvText_begins hread

/-- **The benchmark**: whatever the clock gives and the buffers hold at first, and whether or not the
file of results can be opened and written to, the program calls the cipher 960500 times, meets no
fault, encrypts the one byte, and leaves every other file as it was.  If the file can be opened, it
gets the lines of 9604 measurements, as far as the writes get there. -/
theorem main_collects (readings : Nat → BitVec 64) (lands : Nat → Nat) (ok : Bool)
    (fileBuffer outBuffer : Vector Byte 64000) (inlen : CInt) (fs : Files) :
    ∃ m fs', benchMain readings lands ok fileBuffer outBuffer inlen fs = .ok (0, m, fs')
      ∧ m.world.fault = none ∧ m.trace = allEvents readings 0 9605
      ∧ m.world.args.out
          = outBuffer.toArray.set! 0 (fileBuffer[0] ^^^ (arxArgs fileBuffer outBuffer).keyStream 0)
      ∧ (∀ fname, fname ≠ resultsFile → fs' fname = fs fname)
      ∧ (ok = false → fs' = fs)
      ∧ (ok = true → ∃ content, fs' resultsFile = some content
          ∧ ResultsIn lands "chacha_base" (results readings 2 9604) ((fs resultsFile).getD []) content) := by
  have hrun := benchMain_eq readings lands ok fileBuffer outBuffer inlen fs
  have hresults := resultsIn_landed lands "chacha_base" (results readings 2 9604) ((fs resultsFile).getD [])
  generalize results readings 2 9604 = rs at hrun hresults ⊢
  generalize allEvents readings 0 9605 = trace at hrun ⊢
  refine ⟨_, _, hrun, rfl, rfl, encrypted_arxArgs fileBuffer outBuffer, ?_, ?_, ?_⟩
  · intro fname hne
    cases ok with
    | false => rfl
    | true => exact Function.update_of_ne hne _ _
  · rintro rfl
    rfl
  · rintro rfl
    exact ⟨_, written_self lands resultsFile fs _, hresults⟩

end AeadPerf.Bench
