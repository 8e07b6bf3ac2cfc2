/- Pdq.Shootout.CorpusGen -- the corpus the shootout is run on.

A corpus is written file by file, and a file row group by row group.  The five
columns of a row group are filled by an xorshift generator, and then a few values
are planted at fixed rows.  Each file has its own generator, which runs in a cycle
and never through zero (`fileRng_cycles`). -/
import Pdq.Index.Prune
import Pdq.Theory.FallibleLoop
import Pdq.Theory.Labels
import Pdq.Theory.Xorshift

namespace Pdq

open Theory KeyFormat

set_option autoImplicit false

/-! ## Planted values -/

def singleNeedle : Str := "192.168.133.7".toList

def prefixValue : Str := "192.168.133.42".toList

/-- `www.evil.com` with its labels reversed. -/
def domainValue : Str := "com.evil.www".toList

/-! ## The generator -/

structure Rng where
  state : UInt64
  deriving DecidableEq

namespace Rng

def new (seed : UInt64) : Rng := ⟨max seed 1⟩

/-- What `next_u64` makes of the state. -/
def step (x : UInt64) : UInt64 :=
  let x := x ^^^ (x <<< 13)
  let x := x ^^^ (x >>> 7)
  x ^^^ (x <<< 17)

def nextU64 (rng : Rng) : UInt64 × Rng :=
  let x := step rng.state
  (x, ⟨x⟩)

def below (rng : Rng) (n : UInt64) : UInt64 × Rng :=
  let (x, rng) := rng.nextU64
  (x % n, rng)

end Rng

/-! ## Filler -/

/-- Labels with a dot between them. -/
def dotted (labels : List Str) : Str := ['.'].intercalate labels

def randIp (rng : Rng) : Str × Rng :=
  let (a, rng) := rng.below 255
  let (b, rng) := rng.below 256
  let (c, rng) := rng.below 256
  let (d, rng) := rng.below 255
  (dotted [decimal (1 + a).toNat, decimal b.toNat, decimal c.toNat, decimal (1 + d).toNat], rng)

def tlds : List Str := ["com".toList, "net".toList, "org".toList, "io".toList]

def names : List Str :=
  ["alpha".toList, "bravo".toList, "delta".toList, "omega".toList, "zulu".toList]

def subs : List Str := ["www".toList, "api".toList, "mail".toList, "cdn".toList]

def randDomain (rng : Rng) : Str × Rng :=
  let (tld, rng) := rng.below 4
  let (name, rng) := rng.below 5
  let (sub, rng) := rng.below 4
  (dotted [subs.getD sub.toNat [], names.getD name.toNat [], tlds.getD tld.toNat []], rng)

def reverseDomain (domain : Str) : Str := dotted (domain.splitOn '.').reverse

def randDomainRev (rng : Rng) : Str × Rng :=
  let (domain, rng) := randDomain rng
  (reverseDomain domain, rng)

def randEmail (rng : Rng) : Str × Rng :=
  let (user, rng) := rng.below 100000
  let (domain, rng) := randDomain rng
  ("user".toList ++ decimal user.toNat ++ ['@'] ++ domain, rng)

def randBytes (rng : Rng) : Int × Rng :=
  let (size, rng) := rng.below 1436
  (64 + size.toNat, rng)

/-- `(0..n).map(|_| draw(rng)).collect()` -/
def repeatDraw {A : Type} (draw : Rng → A × Rng) : Nat → Rng → List A × Rng
  | 0, rng => ([], rng)
  | n + 1, rng =>
      let (a, rng) := draw rng
      let (rest, rng) := repeatDraw draw n rng
      (a :: rest, rng)

/-! ## Batches -/

inductive TextColumn where
  | srcIp
  | dstIp
  | domainRev
  | email
  deriving DecidableEq, Repr

namespace TextColumn

def name : TextColumn → Column
  | srcIp => "src_ip".toList
  | dstIp => "dst_ip".toList
  | domainRev => "domain_rev".toList
  | email => "email".toList

/-- `match *col` -/
def ofName (col : Column) : Option TextColumn :=
  [srcIp, dstIp, domainRev, email].find? fun c => decide (c.name = col)

end TextColumn

def bytesName : Column := "bytes".toList

/-- A value to be planted in a row of a column. -/
structure Injection where
  column : Column
  row : Nat
  value : Str
  deriving DecidableEq, Repr

inductive CorpusError where
  /-- `cannot inject into unknown column {other}` -/
  | unknownColumn (column : Column)
  /-- `all columns in a record batch must have the same length` -/
  | lengths
  | panic
  deriving DecidableEq, Repr

/-- The text columns of a batch while it is filled. -/
abbrev Texts := TextColumn → List Str

/-- The body of the loop over `injected`. -/
def inject (texts : Texts) (planted : Injection) : Except CorpusError Texts :=
  match TextColumn.ofName planted.column with
  | none => .error (.unknownColumn planted.column)
  | some c =>
      if planted.row < (texts c).length then
        .ok (Function.update texts c ((texts c).set planted.row planted.value))
      else .error .panic

/-- `RecordBatch::try_new`: the arrays have the length of the first. -/
def RecordBatch.tryNew (columns : List (Column × ArrayRef)) : Except CorpusError RecordBatch :=
  let numRows := ((columns.head?).map fun column => column.2.length).getD 0
  if aligned : ∀ column ∈ columns, column.2.length = numRows then .ok ⟨numRows, columns, aligned⟩
  else .error .lengths

def textArray (values : List Str) : ArrayRef := .stringArray (values.map some)

def intArray (values : List Int) : ArrayRef :=
  .otherArray (values.map fun value => ⟨.int64 (some value), rfl⟩)

/-- The arrays of a batch, in the order of the schema. -/
def batchArrays (texts : Texts) (bytes : List Int) : List (Column × ArrayRef) :=
  [(TextColumn.srcIp.name, textArray (texts .srcIp)),
    (TextColumn.dstIp.name, textArray (texts .dstIp)),
    (TextColumn.domainRev.name, textArray (texts .domainRev)),
    (TextColumn.email.name, textArray (texts .email)),
    (bytesName, intArray bytes)]

def buildBatch (nRows : Nat) (rng : Rng) (injected : List Injection) :
    Except CorpusError (RecordBatch × Rng) := do
  let (srcIp, rng) := repeatDraw randIp nRows rng
  let (dstIp, rng) := repeatDraw randIp nRows rng
  let (domainRev, rng) := repeatDraw randDomainRev nRows rng
  let (email, rng) := repeatDraw randEmail nRows rng
  let (bytes, rng) := repeatDraw randBytes nRows rng
  let texts ← injected.foldlM inject fun
    | .srcIp => srcIp
    | .dstIp => dstIp
    | .domainRev => domainRev
    | .email => email
  let batch ← RecordBatch.tryNew (batchArrays texts bytes)
  return (batch, rng)

/-! ## Files -/

/-- `format!("10.{}.{}.7", fi / 256, fi % 256)` -/
def multiIoc (fi : Nat) : Str :=
  dotted ["10".toList, decimal (fi / 256), decimal (fi % 256), "7".toList]

/-- `format!("part_{fi:05}.parquet")` -/
def partName (fi : Nat) : Str :=
  "part_".toList ++ (decimal fi).leftpad 5 '0' ++ ".parquet".toList

/-- `n - 1` on a `usize`: at zero it panics in a build with overflow checks, and wraps
around in one without. -/
def usizePred (overflowChecks : Bool) (n : Nat) : Except CorpusError Nat :=
  if 0 < n then .ok (n - 1)
  else if overflowChecks then .error .panic
  else .ok (usizeBound - 1)

/-- What is planted in row group `rgi` of file `fi`. -/
def injections (needleFile needleRg fi rgi : Nat) : List Injection :=
  (if rgi = 0 then [⟨TextColumn.srcIp.name, 0, multiIoc fi⟩] else []) ++
    (if fi = 0 ∧ rgi = 0 then
      [⟨TextColumn.srcIp.name, 1, prefixValue⟩, ⟨TextColumn.domainRev.name, 0, domainValue⟩]
    else []) ++
    (if fi = needleFile ∧ rgi = needleRg then
      [⟨TextColumn.srcIp.name, 2, singleNeedle⟩]
    else [])

/-- The generator of file `fi`. -/
def fileRng (seed : UInt64) (fi : Nat) : Rng :=
  .new ((seed + UInt64.ofNat fi) * 0x9E3779B97F4A7C15)

/-- The body of the loop over the row groups of file `fi`: what is written so far, and
its generator. -/
def writeRowGroup (needleFile needleRg rowsPerGroup fi : Nat) (written : List RecordBatch × Rng)
    (rgi : Nat) : Except CorpusError (List RecordBatch × Rng) := do
  let (batch, rng) ← buildBatch rowsPerGroup written.2 (injections needleFile needleRg fi rgi)
  return (written.1 ++ [batch], rng)

/-- One file: its row groups as they are handed to the writer.  `writer_props`
refuses a row-group size of zero. -/
def writeFile (needleFile needleRg rowGroupsPerFile rowsPerGroup : Nat) (seed : UInt64)
    (fi : Nat) : Except CorpusError (List RecordBatch) := do
  if rowsPerGroup = 0 then .error .panic
  let (batches, _) ← (List.range rowGroupsPerFile).foldlM
    (writeRowGroup needleFile needleRg rowsPerGroup fi) ([], fileRng seed fi)
  return batches

/-- The files of a corpus, each with its path. -/
def writeCorpus (overflowChecks : Bool) (dataDir : Path)
    (nFiles rowGroupsPerFile rowsPerGroup : Nat) (seed : UInt64) :
    Except CorpusError (List (Path × List RecordBatch)) := do
  let needleFile ← usizePred overflowChecks nFiles
  let needleRg ← usizePred overflowChecks rowGroupsPerFile
  (List.range nFiles).mapM fun fi =>
    (writeFile needleFile needleRg rowGroupsPerFile rowsPerGroup seed fi).map
      (join dataDir (partName fi), ·)

/-! ## The generator runs in a cycle -/

namespace Rng

theorem step_injective : Function.Injective step := by
  intro x y same
  have words := congrArg UInt64.toBitVec same
  simp only [step, UInt64.toBitVec_xor, UInt64.toBitVec_shiftLeft, UInt64.toBitVec_shiftRight]
    at words
  refine UInt64.toBitVec_inj.mp ?_
  exact xorShiftLeft_injective (k := 13) (by decide)
    (xorShiftRight_injective (k := 7) (by decide)
      (xorShiftLeft_injective (k := 17) (by decide) words))

/-- The generator after one draw. -/
def advance (rng : Rng) : Rng := rng.nextU64.2

theorem advance_injective : Function.Injective advance := by
  rintro ⟨x⟩ ⟨y⟩ same
  exact congrArg Rng.mk (step_injective (congrArg Rng.state same))

instance : Finite Rng :=
  Finite.of_injective (fun rng : Rng => rng.state.toBitVec.toFin) fun a b same => by
    cases a
    cases b
    exact congrArg Rng.mk (UInt64.toBitVec_inj.mp (BitVec.toFin_inj.mp same))

theorem new_of_ne {seed : UInt64} (ne : seed ≠ 0) : new seed = ⟨seed⟩ := by
  rw [new, UInt64.max_def]
  split <;> grind

theorem new_ne_zero (seed : UInt64) : new seed ≠ ⟨0⟩ := by
  by_cases zero : seed = 0
  · subst zero
    decide
  · rw [new_of_ne zero]
    exact fun same => zero (congrArg Rng.state same)

end Rng

/-- Multiplying by the odd constant can be undone. -/
theorem spread_injective :
    Function.Injective fun x : UInt64 => x * 0x9E3779B97F4A7C15 := by
  intro x y same
  have undo : (0x9E3779B97F4A7C15 : UInt64) * 0xF1DE83E19937733D = 1 := by decide
  have back := congrArg (· * (0xF1DE83E19937733D : UInt64)) same
  simp only [UInt64.mul_assoc, undo, UInt64.mul_one] at back
  exact back

theorem fileRng_of_ne {seed : UInt64} {fi : Nat} (ne : seed + UInt64.ofNat fi ≠ 0) :
    fileRng seed fi = ⟨(seed + UInt64.ofNat fi) * 0x9E3779B97F4A7C15⟩ :=
  Rng.new_of_ne fun zero => ne (spread_injective (zero.trans UInt64.zero_mul.symm))

/-- **The generator of a file** is never zero and comes back to where it started.
Two files whose seeds are not zero never are at the same state after the same
number of draws. -/
theorem fileRng_cycles (seed : UInt64) :
    (∀ fi n, (Rng.advance^[n] (fileRng seed fi)).state ≠ 0) ∧
      (∀ fi, ∃ k, 0 < k ∧ ∀ n,
        Rng.advance^[n + k] (fileRng seed fi) = Rng.advance^[n] (fileRng seed fi)) ∧
      ∀ n, Set.InjOn (fun fi => Rng.advance^[n] (fileRng seed fi))
        {fi | fi < UInt64.size ∧ seed + UInt64.ofNat fi ≠ 0} := by
  refine ⟨fun fi n zero => ?_, fun fi => ?_, fun n fi known fi' known' same => ?_⟩
  · have fixed : Rng.advance ⟨0⟩ = ⟨0⟩ := by decide
    exact iterate_ne Rng.advance_injective fixed (Rng.new_ne_zero _) n (congrArg Rng.mk zero)
  · obtain ⟨k, positive, again⟩ := returns_of_injective Rng.advance_injective (fileRng seed fi)
    exact ⟨k, positive, fun n => by rw [Function.iterate_add_apply, again]⟩
  · have start : fileRng seed fi = fileRng seed fi' := Rng.advance_injective.iterate n same
    rw [fileRng_of_ne known.2, fileRng_of_ne known'.2] at start
    have sums : seed + UInt64.ofNat fi = seed + UInt64.ofNat fi' :=
      spread_injective (congrArg Rng.state start)
    have words := congrArg UInt64.toNat ((UInt64.add_right_inj seed).mp sums)
    rwa [UInt64.toNat_ofNat_of_lt' known.1, UInt64.toNat_ofNat_of_lt' known'.1] at words

end Pdq
