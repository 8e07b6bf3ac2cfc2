/- Pdq.Shootout.Corpus -- what a generated corpus holds.

A batch is filled, and then the values of its row group are planted; no two go to one
place, so all stay (`planted_of_buildBatch`).  Nothing in a corpus has a NUL.  Writing
succeeds exactly when the row groups are long enough for the values to be planted
(`writeCorpus_ok_iff`), and then every file is at its own path and holds what is
planted in it (`corpus_of_writeCorpus`). -/
import Pdq.Shootout.CorpusGen

namespace Pdq

open Theory KeyFormat

set_option autoImplicit false

/-! ## Planting values in the columns -/

theorem TextColumn.ofName_name (c : TextColumn) : ofName c.name = some c := by
  cases c <;> rfl

theorem TextColumn.ofName_eq {column : Column} {c : TextColumn} (named : ofName column = some c) :
    column = c.name := by
  have first := List.find?_some (p := fun c : TextColumn => decide (c.name = column)) named
  exact (of_decide_eq_true first).symm

/-- Every value to be planted has its column, and its row is there. -/
def Plantable (nRows : Nat) (injected : List Injection) : Prop :=
  ∀ planted ∈ injected, ∃ c : TextColumn, planted.column = c.name ∧ planted.row < nRows

/-- Every column has `nRows` values. -/
def Texts.Rows (texts : Texts) (nRows : Nat) : Prop := ∀ c, (texts c).length = nRows

theorem inject_ok {texts texts' : Texts} {planted : Injection}
    (ok : inject texts planted = .ok texts') :
    ∃ c : TextColumn, planted.column = c.name ∧ planted.row < (texts c).length ∧
      texts' = Function.update texts c ((texts c).set planted.row planted.value) := by
  unfold inject at ok
  split at ok
  · cases ok
  · rename_i c named
    split at ok
    · rename_i inRange
      cases ok
      exact ⟨c, TextColumn.ofName_eq named, inRange, rfl⟩
    · cases ok

theorem inject_name (texts : Texts) (c : TextColumn) (row : Nat) (value : Str) :
    inject texts ⟨c.name, row, value⟩ =
      if row < (texts c).length then .ok (Function.update texts c ((texts c).set row value))
      else .error .panic := by
  simp only [inject, TextColumn.ofName_name]

theorem Texts.Rows.update {texts : Texts} {nRows : Nat} (rows : texts.Rows nRows) (c : TextColumn)
    (row : Nat) (value : Str) :
    Texts.Rows (Function.update texts c ((texts c).set row value)) nRows := by
  intro c'
  by_cases here : c' = c
  · subst here
    rw [Function.update_self, List.length_set, rows]
  · rw [Function.update_of_ne here, rows]

section Planting

variable {texts texts' : Texts} {injected : List Injection} {nRows : Nat}

/-- The lengths stay, and the rows are in range. -/
theorem injectAll_rows (rows : texts.Rows nRows)
    (ok : injected.foldlM inject texts = .ok texts') :
    texts'.Rows nRows ∧ Plantable nRows injected := by
  have invariant := foldlM_ok_induction
    (fun (done : List Injection) (now : Texts) => now.Rows nRows ∧ Plantable nRows done)
    (fun done planted now next ⟨held, inRange⟩ visit => by
      obtain ⟨c, named, bound, rfl⟩ := inject_ok visit
      refine ⟨held.update c _ _, fun other member => ?_⟩
      rcases List.mem_append.mp member with before | last
      · exact inRange other before
      · rw [List.mem_singleton.mp last]
        exact ⟨c, named, held c ▸ bound⟩)
    injected [] texts texts' ⟨rows, fun _ member => absurd member List.not_mem_nil⟩ ok
  simpa using invariant

/-- **Planting fails only where a row is out of range.** -/
theorem injectAll_outcome (rows : texts.Rows nRows)
    (named : ∀ planted ∈ injected, ∃ c : TextColumn, planted.column = c.name) :
    (Plantable nRows injected → ∃ texts', injected.foldlM inject texts = .ok texts') ∧
      ∀ e, injected.foldlM inject texts = .error e → e = .panic := by
  constructor
  · intro plantable
    obtain ⟨texts', ok, -⟩ := foldlM_total (f := inject) (fun now => Texts.Rows now nRows)
      (fun planted member now held => by
        obtain ⟨column, row, value⟩ := planted
        obtain ⟨c, rfl, bound⟩ := plantable _ member
        refine ⟨_, ?_, held.update c row value⟩
        rw [inject_name, if_pos (by rw [held]; exact bound)])
      rows
    exact ⟨texts', ok⟩
  · intro e failed
    refine foldlM_error (· = .panic) (fun planted member now e fails => ?_) failed
    obtain ⟨column, row, value⟩ := planted
    obtain ⟨c, rfl⟩ := named _ member
    rw [inject_name] at fails
    split at fails
    · cases fails
    · cases fails
      rfl

/-- What a column holds was there before or is planted. -/
theorem mem_of_injectAll (ok : injected.foldlM inject texts = .ok texts') {c : TextColumn}
    {v : Str} (member : v ∈ texts' c) :
    v ∈ texts c ∨ ∃ planted ∈ injected, v = planted.value := by
  refine foldlM_ok_invariant
    (fun now : Texts => ∀ c, ∀ v ∈ now c, v ∈ texts c ∨ ∃ planted ∈ injected, v = planted.value)
    (fun planted inList now next held visit c' v member => ?_)
    (fun c v member => Or.inl member) ok c v member
  obtain ⟨c, -, -, rfl⟩ := inject_ok visit
  by_cases here : c' = c
  · subst here
    rw [Function.update_self] at member
    rcases List.mem_or_eq_of_mem_set member with before | rfl
    · exact held c' v before
    · exact Or.inr ⟨planted, inList, rfl⟩
  · rw [Function.update_of_ne here] at member
    exact held c' v member

/-- **What is planted stays**, when no two values are planted at one place. -/
theorem planted_of_injectAll
    (apart : injected.Pairwise fun p q => p.column ≠ q.column ∨ p.row ≠ q.row)
    (ok : injected.foldlM inject texts = .ok texts') {planted : Injection}
    (member : planted ∈ injected) {c : TextColumn} (named : planted.column = c.name) :
    (texts' c)[planted.row]? = some planted.value := by
  have invariant := foldlM_ok_induction
    (fun (done : List Injection) (now : Texts) =>
      (done.Pairwise fun p q => p.column ≠ q.column ∨ p.row ≠ q.row) →
      ∀ p ∈ done, ∀ c : TextColumn, p.column = c.name → (now c)[p.row]? = some p.value)
    (fun done last now next held visit apart p member c named => by
      obtain ⟨c', here, bound, rfl⟩ := inject_ok visit
      obtain ⟨before, -, across⟩ := List.pairwise_append.mp apart
      rcases List.mem_append.mp member with earlier | final
      · have kept := held before p earlier c named
        by_cases same : c = c'
        · subst same
          have other : last.row ≠ p.row := by
            rcases across p earlier last (by simp) with column | row
            · exact absurd (named.trans here.symm) column
            · exact row.symm
          rw [Function.update_self, List.getElem?_set_ne other, kept]
        · rw [Function.update_of_ne same, kept]
      · obtain rfl := List.mem_singleton.mp final
        have same : c = c' := by
          have names := congrArg TextColumn.ofName (named.symm.trans here)
          rwa [TextColumn.ofName_name, TextColumn.ofName_name, Option.some.injEq] at names
        subst same
        rw [Function.update_self, List.getElem?_set_self bound])
    injected [] texts texts' (fun _ _ member => absurd member List.not_mem_nil) ok
  rw [List.nil_append] at invariant
  exact invariant apart planted member c named

end Planting

/-! ## Filler is free of NUL -/

theorem not_mem_dotted {labels : List Str}
    (clean : ∀ label ∈ labels, ¬ valueRgSeparator ∈ label) :
    ¬ valueRgSeparator ∈ dotted labels := by
  intro member
  obtain ⟨label, inLabels, held⟩ := (mem_intercalate (by decide)).mp member
  exact clean label inLabels held

theorem nul_not_mem_decimal (n : Nat) : ¬ valueRgSeparator ∈ decimal n :=
  not_mem_decimal (by decide)

theorem nul_not_mem_getD {labels : List Str} (clean : ∀ label ∈ labels, ¬ valueRgSeparator ∈ label)
    (i : Nat) : ¬ valueRgSeparator ∈ labels.getD i [] := by
  rw [List.getD_eq_getElem?_getD]
  cases position : labels[i]? with
  | none => exact List.not_mem_nil
  | some label => exact clean label (List.mem_of_getElem? position)

theorem nul_not_mem_randIp (rng : Rng) : ¬ valueRgSeparator ∈ (randIp rng).1 := by
  refine not_mem_dotted fun label member => ?_
  simp only [List.mem_cons, List.not_mem_nil, or_false] at member
  rcases member with rfl | rfl | rfl | rfl <;> exact nul_not_mem_decimal _

theorem nul_not_mem_randDomain (rng : Rng) : ¬ valueRgSeparator ∈ (randDomain rng).1 := by
  refine not_mem_dotted fun label member => ?_
  simp only [List.mem_cons, List.not_mem_nil, or_false] at member
  rcases member with rfl | rfl | rfl
  · exact nul_not_mem_getD (by decide) _
  · exact nul_not_mem_getD (by decide) _
  · exact nul_not_mem_getD (by decide) _

theorem nul_not_mem_reverseDomain {domain : Str} (clean : ¬ valueRgSeparator ∈ domain) :
    ¬ valueRgSeparator ∈ reverseDomain domain := fun member =>
  clean ((mem_reverseLabels (x := '.') (by decide)).mp member)

theorem nul_not_mem_randEmail (rng : Rng) : ¬ valueRgSeparator ∈ (randEmail rng).1 := by
  simp only [randEmail, List.mem_append, not_or]
  exact ⟨⟨⟨by decide, nul_not_mem_decimal _⟩, by decide⟩, nul_not_mem_randDomain _⟩

theorem length_repeatDraw {A : Type} (draw : Rng → A × Rng) (n : Nat) (rng : Rng) :
    (repeatDraw draw n rng).1.length = n := by
  induction n generalizing rng with
  | zero => rfl
  | succ n ih => exact congrArg (· + 1) (ih _)

theorem forall_repeatDraw {A : Type} {draw : Rng → A × Rng} {P : A → Prop}
    (drawn : ∀ rng, P (draw rng).1) (n : Nat) (rng : Rng) :
    ∀ a ∈ (repeatDraw draw n rng).1, P a := by
  induction n generalizing rng with
  | zero => exact fun _ member => absurd member List.not_mem_nil
  | succ n ih =>
      intro a member
      rcases List.mem_cons.mp member with rfl | later
      · exact drawn rng
      · exact ih _ a later

/-- What `build_batch` fills the columns with before it plants anything. -/
theorem buildBatch_filled (nRows : Nat) (rng : Rng) (injected : List Injection) :
    ∃ (filler : Texts) (bytes : List Int) (rng' : Rng),
      filler.Rows nRows ∧ bytes.length = nRows ∧
      (∀ c, ∀ v ∈ filler c, ¬ valueRgSeparator ∈ v) ∧
      buildBatch nRows rng injected = (do
        let texts ← injected.foldlM inject filler
        let batch ← RecordBatch.tryNew (batchArrays texts bytes)
        return (batch, rng')) := by
  refine ⟨_, _, _, ?_, ?_, ?_, rfl⟩
  · intro c
    cases c <;> exact length_repeatDraw _ _ _
  · exact length_repeatDraw _ _ _
  · intro c
    cases c with
    | srcIp => exact forall_repeatDraw nul_not_mem_randIp _ _
    | dstIp => exact forall_repeatDraw nul_not_mem_randIp _ _
    | domainRev =>
        exact forall_repeatDraw
          (fun rng => nul_not_mem_reverseDomain (nul_not_mem_randDomain rng)) _ _
    | email => exact forall_repeatDraw nul_not_mem_randEmail _ _

/-! ## What a batch holds -/

theorem tryNew_batchArrays {texts : Texts} {bytes : List Int} {nRows : Nat}
    (rows : texts.Rows nRows) (length : bytes.length = nRows) :
    ∃ batch, RecordBatch.tryNew (batchArrays texts bytes) = .ok batch ∧
      batch.columns = batchArrays texts bytes := by
  have first : (((batchArrays texts bytes).head?).map fun column => column.2.length).getD 0 =
      nRows := by
    simp [batchArrays, textArray, ArrayRef.length, rows .srcIp]
  have aligned : ∀ column ∈ batchArrays texts bytes, column.2.length =
      (((batchArrays texts bytes).head?).map fun column => column.2.length).getD 0 := by
    rw [first]
    intro column member
    simp only [batchArrays, List.mem_cons, List.not_mem_nil, or_false] at member
    rcases member with rfl | rfl | rfl | rfl | rfl
    · simp [textArray, ArrayRef.length, rows .srcIp]
    · simp [textArray, ArrayRef.length, rows .dstIp]
    · simp [textArray, ArrayRef.length, rows .domainRev]
    · simp [textArray, ArrayRef.length, rows .email]
    · simp [intArray, ArrayRef.length, length]
  exact ⟨_, by rw [RecordBatch.tryNew, dif_pos aligned], rfl⟩

theorem mem_textArray {values : List Str} {v : Str} :
    v ∈ (values.map some).reduceOption ↔ v ∈ values := by
  rw [List.reduceOption_mem_iff]
  simp

/-- The text values of a batch are those of its text columns. -/
theorem mem_stringValues_batchArrays {batch : RecordBatch} {texts : Texts} {bytes : List Int}
    (columns : batch.columns = batchArrays texts bytes) {column : Column} {v : Str} :
    v ∈ batch.stringValues column ↔ ∃ c : TextColumn, column = c.name ∧ v ∈ texts c := by
  constructor
  · intro member
    unfold RecordBatch.stringValues at member
    split at member
    · rename_i array found
      have listed := columnByName_mem found
      rw [columns] at listed
      simp only [batchArrays, List.mem_cons, Prod.mk.injEq, List.not_mem_nil, or_false] at listed
      rcases listed with ⟨rfl, rfl⟩ | ⟨rfl, rfl⟩ | ⟨rfl, rfl⟩ | ⟨rfl, rfl⟩ | ⟨rfl, rfl⟩
      · exact ⟨.srcIp, rfl, mem_textArray.mp member⟩
      · exact ⟨.dstIp, rfl, mem_textArray.mp member⟩
      · exact ⟨.domainRev, rfl, mem_textArray.mp member⟩
      · exact ⟨.email, rfl, mem_textArray.mp member⟩
      · cases member
    · cases member
  · rintro ⟨c, rfl, member⟩
    have found : batch.columnByName c.name = some (textArray (texts c)) := by
      rw [RecordBatch.columnByName, columns]
      cases c <;> rfl
    rw [RecordBatch.stringValues, found]
    exact mem_textArray.mpr member

/-- A batch of `nRows` rows with the planted values in it. -/
structure Planted (nRows : Nat) (injected : List Injection) (batch : RecordBatch) : Prop where
  plantable : Plantable nRows injected
  held : ∀ planted ∈ injected, planted.value ∈ batch.stringValues planted.column
  noNul : ∀ column, ∀ v ∈ batch.stringValues column, ¬ valueRgSeparator ∈ v
  schema : ∃ texts bytes, batch.columns = batchArrays texts bytes

theorem planted_of_buildBatch {nRows : Nat} {rng rng' : Rng} {injected : List Injection}
    {batch : RecordBatch}
    (apart : injected.Pairwise fun p q => p.column ≠ q.column ∨ p.row ≠ q.row)
    (clean : ∀ planted ∈ injected, ¬ valueRgSeparator ∈ planted.value)
    (ok : buildBatch nRows rng injected = .ok (batch, rng')) : Planted nRows injected batch := by
  obtain ⟨filler, bytes, last, rows, length, noNul, built⟩ := buildBatch_filled nRows rng injected
  rw [built] at ok
  obtain ⟨texts, planting, ok⟩ := bind_eq_ok_iff.mp ok
  obtain ⟨batch', made, ok⟩ := bind_eq_ok_iff.mp ok
  cases ok
  obtain ⟨rows', plantable⟩ := injectAll_rows rows planting
  obtain ⟨_, made', columns⟩ := tryNew_batchArrays rows' length
  obtain rfl := Except.ok.inj (made'.symm.trans made)
  refine ⟨plantable, fun planted member => ?_, fun column v member => ?_, texts, bytes, columns⟩
  · obtain ⟨c, named, -⟩ := plantable planted member
    exact (mem_stringValues_batchArrays columns).mpr
      ⟨c, named, List.mem_of_getElem? (planted_of_injectAll apart planting member named)⟩
  · obtain ⟨c, -, inColumn⟩ := (mem_stringValues_batchArrays columns).mp member
    rcases mem_of_injectAll planting inColumn with before | ⟨planted, inList, rfl⟩
    · exact noNul c v before
    · exact clean planted inList

theorem buildBatch_outcome {nRows : Nat} {injected : List Injection}
    (named : ∀ planted ∈ injected, ∃ c : TextColumn, planted.column = c.name) (rng : Rng) :
    (Plantable nRows injected → ∃ done, buildBatch nRows rng injected = .ok done) ∧
      ∀ e, buildBatch nRows rng injected = .error e → e = .panic := by
  obtain ⟨filler, bytes, last, rows, length, -, built⟩ := buildBatch_filled nRows rng injected
  obtain ⟨returns, panics⟩ := injectAll_outcome rows named
  rw [built]
  cases planting : injected.foldlM inject filler with
  | error e =>
      constructor
      · intro plantable
        obtain ⟨texts, ok⟩ := returns plantable
        rw [ok] at planting
        cases planting
      · intro e' failed
        cases failed
        exact panics e planting
  | ok texts =>
      obtain ⟨rows', -⟩ := injectAll_rows rows planting
      obtain ⟨batch, made, -⟩ := tryNew_batchArrays rows' length
      simp only [bind, Except.bind, made]
      exact ⟨fun _ => ⟨_, rfl⟩, nofun⟩

/-! ## Names -/

theorem mem_leftpad {n : Nat} {a c : Char} {l : Str} (member : c ∈ l.leftpad n a) :
    c = a ∨ c ∈ l := by
  rcases List.mem_append.mp member with pad | rest
  · exact Or.inl (List.eq_of_mem_replicate pad)
  · exact Or.inr rest

theorem not_mem_partName {c : Char} (other : c.isDigit = false)
    (outside : ¬ c ∈ "part_".toList ++ ".parquet".toList) (fi : Nat) : ¬ c ∈ partName fi := by
  simp only [List.mem_append, not_or] at outside
  simp only [partName, List.mem_append, not_or]
  refine ⟨⟨outside.1, fun inNumber => ?_⟩, outside.2⟩
  rcases mem_leftpad inNumber with rfl | digit
  · cases other
  · exact not_mem_decimal other digit

theorem isAbsolute_partName (fi : Nat) : isAbsolute (partName fi) = false := rfl

/-- The walk selects the files of a corpus. -/
theorem hasParquetExtension_part (dataDir : Path) (fi : Nat) :
    hasParquetExtension (join dataDir (partName fi)) = true := by
  obtain ⟨front, -, joined⟩ := join_eq_append dataDir
  rw [joined _ (isAbsolute_partName fi)]
  have noSlash : ¬ '/' ∈ "part_".toList ++ (decimal fi).leftpad 5 '0' := fun slash =>
    not_mem_partName (by decide) (by decide) fi (List.mem_append_left _ slash)
  exact hasParquetExtension_append (by simp) noSlash front

theorem not_newline_part {dataDir : Path} (noFeed : ¬ '\n' ∈ dataDir) (fi : Nat) :
    ¬ '\n' ∈ join dataDir (partName fi) := by
  obtain ⟨front, known, joined⟩ := join_eq_append dataDir
  rw [joined _ (isAbsolute_partName fi), List.mem_append, not_or]
  refine ⟨fun inFront => ?_, not_mem_partName (by decide) (by decide) fi⟩
  rcases known _ inFront with inDir | slash
  · exact noFeed inDir
  · cases slash

theorem ofDigitChars_leftpad (n k : Nat) :
    Nat.ofDigitChars 10 ((decimal n).leftpad k '0') 0 = n := by
  rw [List.leftpad]
  generalize k - (decimal n).length = zeros
  induction zeros with
  | zero => exact Nat.ofDigitChars_ten_toDigits
  | succ zeros ih =>
      rw [List.replicate_succ, List.cons_append]
      exact ih

/-- **Every file has a path of its own.** -/
theorem part_injective (dataDir : Path) :
    Function.Injective fun fi => join dataDir (partName fi) := by
  intro fi fi' same
  obtain ⟨front, -, joined⟩ := join_eq_append dataDir
  simp only [joined _ (isAbsolute_partName _)] at same
  have numbers : (decimal fi).leftpad 5 '0' = (decimal fi').leftpad 5 '0' :=
    List.append_cancel_left (List.append_cancel_right (List.append_cancel_left same))
  rw [← ofDigitChars_leftpad fi 5, numbers, ofDigitChars_leftpad]

theorem eq_of_decimal_eq {m n : Nat} (same : decimal m = decimal n) : m = n := by
  have value : Nat.ofDigitChars 10 (decimal m) 0 = Nat.ofDigitChars 10 (decimal n) 0 := by rw [same]
  rwa [decimal, decimal, Nat.ofDigitChars_ten_toDigits, Nat.ofDigitChars_ten_toDigits] at value

/-- **Every file has an address of its own.** -/
theorem multiIoc_injective : Function.Injective multiIoc := by
  intro fi fi' same
  have noDot : ∀ fi, ∀ label ∈ ["10".toList, decimal (fi / 256), decimal (fi % 256), "7".toList],
      ¬ '.' ∈ label := by
    intro fi label member
    simp only [List.mem_cons, List.not_mem_nil, or_false] at member
    rcases member with rfl | rfl | rfl | rfl
    · decide
    · exact not_mem_decimal (by decide)
    · exact not_mem_decimal (by decide)
    · decide
  have labels := congrArg (List.splitOn '.') same
  rw [multiIoc, multiIoc, dotted, dotted, List.splitOn_intercalate _ (noDot fi) (by simp),
    List.splitOn_intercalate _ (noDot fi') (by simp)] at labels
  simp only [List.cons.injEq, and_true, true_and] at labels
  have high := eq_of_decimal_eq labels.1
  have low := eq_of_decimal_eq labels.2
  omega

/-! ## What a corpus holds -/

section Corpus

variable {nFiles rowGroupsPerFile needleFile needleRg rowsPerGroup fi rgi : Nat} {seed : UInt64}
  {overflowChecks : Bool}

theorem mem_injections {planted : Injection} :
    planted ∈ injections needleFile needleRg fi rgi ↔
      (rgi = 0 ∧ planted = ⟨TextColumn.srcIp.name, 0, multiIoc fi⟩) ∨
      (fi = 0 ∧ rgi = 0 ∧ (planted = ⟨TextColumn.srcIp.name, 1, prefixValue⟩ ∨
        planted = ⟨TextColumn.domainRev.name, 0, domainValue⟩)) ∨
      (fi = needleFile ∧ rgi = needleRg ∧
        planted = ⟨TextColumn.srcIp.name, 2, singleNeedle⟩) := by
  simp only [injections, List.mem_append, or_assoc]
  refine or_congr ?_ (or_congr ?_ ?_)
  · split <;> simp [*]
  · split <;> simp_all
  · split <;> simp_all

theorem named_of_mem_injections {planted : Injection}
    (member : planted ∈ injections needleFile needleRg fi rgi) :
    ∃ c : TextColumn, planted.column = c.name := by
  rcases mem_injections.mp member with ⟨-, rfl⟩ | ⟨-, -, rfl | rfl⟩ | ⟨-, -, rfl⟩
  · exact ⟨.srcIp, rfl⟩
  · exact ⟨.srcIp, rfl⟩
  · exact ⟨.domainRev, rfl⟩
  · exact ⟨.srcIp, rfl⟩

/-- No two values are planted at one place. -/
theorem injections_apart :
    (injections needleFile needleRg fi rgi).Pairwise fun p q =>
      p.column ≠ q.column ∨ p.row ≠ q.row := by
  have columns : TextColumn.srcIp.name ≠ TextColumn.domainRev.name := by decide
  unfold injections
  split <;> split <;> split <;> simp [columns, columns.symm]

theorem noNul_of_mem_injections {planted : Injection}
    (member : planted ∈ injections needleFile needleRg fi rgi) :
    ¬ valueRgSeparator ∈ planted.value := by
  rcases mem_injections.mp member with ⟨-, rfl⟩ | ⟨-, -, rfl | rfl⟩ | ⟨-, -, rfl⟩
  · refine not_mem_dotted fun label member => ?_
    simp only [List.mem_cons, List.not_mem_nil, or_false] at member
    rcases member with rfl | rfl | rfl | rfl
    · decide
    · exact nul_not_mem_decimal _
    · exact nul_not_mem_decimal _
    · decide
  · decide
  · decide
  · decide

/-- Three rows are enough. -/
theorem plantable_injections (enough : 3 ≤ rowsPerGroup) :
    Plantable rowsPerGroup (injections needleFile needleRg fi rgi) := by
  intro planted member
  obtain ⟨c, named⟩ := named_of_mem_injections member
  have row : planted.row < 3 := by
    rcases mem_injections.mp member with ⟨-, rfl⟩ | ⟨-, -, rfl | rfl⟩ | ⟨-, -, rfl⟩ <;> simp
  exact ⟨c, named, by omega⟩

/-- The row groups of file `fi`, in order. -/
def FileBatches (needleFile needleRg rowGroupsPerFile rowsPerGroup fi : Nat) : List RecordBatch → Prop :=
  List.Forall₂ (fun rgi => Planted rowsPerGroup (injections needleFile needleRg fi rgi))
    (List.range rowGroupsPerFile)

theorem fileBatches_of_writeFile {batches : List RecordBatch}
    (ok : writeFile needleFile needleRg rowGroupsPerFile rowsPerGroup seed fi = .ok batches) :
    0 < rowsPerGroup ∧ FileBatches needleFile needleRg rowGroupsPerFile rowsPerGroup fi batches := by
  unfold writeFile at ok
  by_cases empty : rowsPerGroup = 0
  · rw [if_pos empty] at ok
    cases ok
  rw [if_neg empty] at ok
  obtain ⟨⟨_, rng⟩, loop, last⟩ := bind_eq_ok_iff.mp ok
  cases last
  refine ⟨Nat.pos_of_ne_zero empty, ?_⟩
  have invariant := foldlM_ok_induction
    (fun (done : List Nat) (now : List RecordBatch × Rng) =>
      List.Forall₂ (fun rgi => Planted rowsPerGroup (injections needleFile needleRg fi rgi))
        done now.1)
    (fun done rgi now next held visit => by
      unfold writeRowGroup at visit
      obtain ⟨⟨batch, rng⟩, built, same⟩ := bind_eq_ok_iff.mp visit
      cases same
      exact List.rel_append held (.cons (planted_of_buildBatch injections_apart
        (fun _ => noNul_of_mem_injections) built) .nil))
    (List.range rowGroupsPerFile) [] _ _ .nil loop
  rw [List.nil_append] at invariant
  exact invariant

theorem writeRowGroup_outcome (written : List RecordBatch × Rng) :
    (3 ≤ rowsPerGroup → ∃ written',
      writeRowGroup needleFile needleRg rowsPerGroup fi written rgi = .ok written') ∧
      ∀ e, writeRowGroup needleFile needleRg rowsPerGroup fi written rgi = .error e →
        e = .panic := by
  have named : ∀ planted ∈ injections needleFile needleRg fi rgi,
      ∃ c : TextColumn, planted.column = c.name := fun _ => named_of_mem_injections
  obtain ⟨returns, panics⟩ := @buildBatch_outcome rowsPerGroup _ named written.2
  unfold writeRowGroup
  constructor
  · intro enough
    obtain ⟨done, built⟩ := returns (plantable_injections enough)
    exact ⟨_, by rw [built]; rfl⟩
  · intro e failed
    cases built : buildBatch rowsPerGroup written.2 (injections needleFile needleRg fi rgi) with
    | ok done =>
        rw [built] at failed
        cases failed
    | error e' =>
        rw [built] at failed
        cases failed
        exact panics _ built

theorem writeFile_outcome :
    (0 < rowsPerGroup → (rowGroupsPerFile = 0 ∨ 3 ≤ rowsPerGroup) →
      ∃ batches, writeFile needleFile needleRg rowGroupsPerFile rowsPerGroup seed fi = .ok batches) ∧
      ∀ e, writeFile needleFile needleRg rowGroupsPerFile rowsPerGroup seed fi = .error e → e = .panic := by
  unfold writeFile
  constructor
  · intro positive enough
    rw [if_neg (by omega)]
    obtain ⟨written, loop, -⟩ := foldlM_total (l := List.range rowGroupsPerFile)
      (f := writeRowGroup needleFile needleRg rowsPerGroup fi) (fun _ => True)
      (fun rgi inFile written _ => by
        have long : 3 ≤ rowsPerGroup := by
          have some := List.mem_range.mp inFile
          omega
        obtain ⟨written', ok⟩ := (writeRowGroup_outcome written).1 long
        exact ⟨written', ok, trivial⟩)
      (b := ([], fileRng seed fi)) trivial
    exact ⟨written.1, by rw [loop]; rfl⟩
  · intro e failed
    split at failed
    · cases failed
      rfl
    · cases loop : (List.range rowGroupsPerFile).foldlM
        (writeRowGroup needleFile needleRg rowsPerGroup fi) ([], fileRng seed fi) with
      | ok written =>
          rw [loop] at failed
          cases failed
      | error e' =>
          rw [loop] at failed
          cases failed
          exact foldlM_error (· = .panic)
            (fun rgi _ written => (writeRowGroup_outcome written).2) loop

/-- The two subtractions panic or decide nothing else. -/
theorem writeCorpus_eq (dataDir : Path) :
    writeCorpus overflowChecks dataDir nFiles rowGroupsPerFile rowsPerGroup seed =
      if overflowChecks = true ∧ (nFiles = 0 ∨ rowGroupsPerFile = 0) then .error .panic
      else (List.range nFiles).mapM fun fi =>
        (writeFile (nFiles - 1) (rowGroupsPerFile - 1) rowGroupsPerFile rowsPerGroup seed fi).map
          (join dataDir (partName fi), ·) := by
  unfold writeCorpus usizePred
  cases nFiles with
  | zero => cases rowGroupsPerFile <;> cases overflowChecks <;> rfl
  | succ n =>
      cases rowGroupsPerFile with
      | succ m => simp [bind, Except.bind]
      | zero =>
          -- Without row groups the number of the last one is not looked at.
          cases overflowChecks <;> simp [bind, Except.bind, writeFile]

/-- The files of a corpus: each at its path, with its row groups. -/
def Corpus (dataDir : Path) (nFiles rowGroupsPerFile rowsPerGroup : Nat) :
    List (Path × List RecordBatch) → Prop :=
  List.Forall₂ (fun fi entry => entry.1 = join dataDir (partName fi) ∧
      FileBatches (nFiles - 1) (rowGroupsPerFile - 1) rowGroupsPerFile rowsPerGroup fi entry.2)
    (List.range nFiles)

theorem corpus_of_writeCorpus {dataDir : Path} {files : List (Path × List RecordBatch)}
    (ok : writeCorpus overflowChecks dataDir nFiles rowGroupsPerFile rowsPerGroup seed =
      .ok files) :
    (nFiles = 0 ∨ 0 < rowsPerGroup) ∧
      Corpus dataDir nFiles rowGroupsPerFile rowsPerGroup files := by
  rw [writeCorpus_eq] at ok
  split at ok
  · cases ok
  have each := mapM_ok_forall₂ ok
  have written : ∀ fi entry,
      (writeFile (nFiles - 1) (rowGroupsPerFile - 1) rowGroupsPerFile rowsPerGroup seed fi).map
        (join dataDir (partName fi), ·) = .ok entry →
      0 < rowsPerGroup ∧ entry.1 = join dataDir (partName fi) ∧
        FileBatches (nFiles - 1) (rowGroupsPerFile - 1) rowGroupsPerFile rowsPerGroup fi entry.2 := by
    intro fi entry made
    cases file : writeFile (nFiles - 1) (rowGroupsPerFile - 1) rowGroupsPerFile rowsPerGroup seed fi with
    | error e =>
        rw [file] at made
        cases made
    | ok batches =>
        rw [file] at made
        cases made
        obtain ⟨positive, held⟩ := fileBatches_of_writeFile file
        exact ⟨positive, rfl, held⟩
  constructor
  · cases nFiles with
    | zero => exact Or.inl rfl
    | succ n =>
        rw [List.range_succ_eq_map] at each
        cases each with
        | cons first rest => exact Or.inr (written _ _ first).1
  · exact each.imp fun fi entry made => (written fi entry made).2

theorem Corpus.paths {dataDir : Path} {files : List (Path × List RecordBatch)}
    (corpus : Corpus dataDir nFiles rowGroupsPerFile rowsPerGroup files) :
    files.map Prod.fst = (List.range nFiles).map fun fi => join dataDir (partName fi) := by
  unfold Corpus at corpus
  generalize List.range nFiles = numbers at corpus ⊢
  induction corpus with
  | nil => rfl
  | cons first _ ih => rw [List.map_cons, List.map_cons, ih, first.1]

theorem Corpus.entry {dataDir : Path} {files : List (Path × List RecordBatch)}
    (corpus : Corpus dataDir nFiles rowGroupsPerFile rowsPerGroup files) (inRange : fi < nFiles) :
    ∃ batches, (join dataDir (partName fi), batches) ∈ files ∧
      FileBatches (nFiles - 1) (rowGroupsPerFile - 1) rowGroupsPerFile rowsPerGroup fi batches := by
  obtain ⟨length, each⟩ := forall₂_range.mp corpus
  obtain ⟨entry, position⟩ : ∃ entry, files[fi]? = some entry :=
    ⟨_, List.getElem?_eq_getElem (by omega)⟩
  obtain ⟨path, batches⟩ := each fi entry position
  exact ⟨entry.2, path ▸ List.mem_of_getElem? position, batches⟩

theorem Corpus.of_mem {dataDir : Path} {files : List (Path × List RecordBatch)}
    (corpus : Corpus dataDir nFiles rowGroupsPerFile rowsPerGroup files)
    {entry : Path × List RecordBatch} (member : entry ∈ files) :
    ∃ fi < nFiles, entry.1 = join dataDir (partName fi) ∧
      FileBatches (nFiles - 1) (rowGroupsPerFile - 1) rowGroupsPerFile rowsPerGroup fi entry.2 := by
  obtain ⟨length, each⟩ := forall₂_range.mp corpus
  obtain ⟨fi, position⟩ := List.mem_iff_getElem?.mp member
  obtain ⟨bound, -⟩ := List.getElem?_eq_some_iff.mp position
  exact ⟨fi, by omega, each fi entry position⟩

theorem FileBatches.rowGroup {batches : List RecordBatch}
    (file : FileBatches (nFiles - 1) (rowGroupsPerFile - 1) rowGroupsPerFile rowsPerGroup fi batches)
    (inRange : rgi < rowGroupsPerFile) :
    ∃ batch, batches[rgi]? = some batch ∧
      Planted rowsPerGroup (injections (nFiles - 1) (rowGroupsPerFile - 1) fi rgi) batch := by
  obtain ⟨length, each⟩ := forall₂_range.mp file
  obtain ⟨batch, position⟩ : ∃ batch, batches[rgi]? = some batch :=
    ⟨_, List.getElem?_eq_getElem (by omega)⟩
  exact ⟨batch, position, each rgi batch position⟩

theorem writeCorpus_returns (dataDir : Path) (seed : UInt64)
    (counted : overflowChecks = true → nFiles ≠ 0 ∧ rowGroupsPerFile ≠ 0)
    (enough : nFiles = 0 ∨ 0 < rowsPerGroup ∧ (rowGroupsPerFile = 0 ∨ 3 ≤ rowsPerGroup)) :
    ∃ files, writeCorpus overflowChecks dataDir nFiles rowGroupsPerFile rowsPerGroup seed =
      .ok files := by
  rw [writeCorpus_eq, if_neg fun panics => ?_]
  · rcases enough with rfl | ⟨positive, enough⟩
    · exact ⟨[], rfl⟩
    · have returns : ∀ fi, ∃ batches, writeFile (nFiles - 1) (rowGroupsPerFile - 1)
          rowGroupsPerFile rowsPerGroup seed fi = .ok batches :=
        fun fi => writeFile_outcome.1 positive enough
      choose batches file using returns
      exact ⟨_, mapM_eq_ok fun fi _ => by rw [file fi]; rfl⟩
  · obtain ⟨someFile, someGroup⟩ := counted panics.1
    exact panics.2.elim someFile someGroup

/-- **A corpus is written exactly when** there is room for the planted values: in row
groups of three rows at least, unless there are no row groups or no files at all,
which a build with overflow checks does not take.  Otherwise the generator panics. -/
theorem writeCorpus_ok_iff (overflowChecks : Bool) (dataDir : Path)
    (nFiles rowGroupsPerFile rowsPerGroup : Nat) (seed : UInt64) :
    ((∃ files, writeCorpus overflowChecks dataDir nFiles rowGroupsPerFile rowsPerGroup seed =
        .ok files) ↔
      (overflowChecks = true → nFiles ≠ 0 ∧ rowGroupsPerFile ≠ 0) ∧
        (nFiles = 0 ∨ 0 < rowsPerGroup ∧ (rowGroupsPerFile = 0 ∨ 3 ≤ rowsPerGroup))) ∧
    ∀ e, writeCorpus overflowChecks dataDir nFiles rowGroupsPerFile rowsPerGroup seed = .error e →
      e = .panic := by
  constructor
  · constructor
    · rintro ⟨files, ok⟩
      obtain ⟨positive, corpus⟩ := corpus_of_writeCorpus ok
      refine ⟨fun checked => ?_, or_iff_not_imp_left.mpr fun some =>
        ⟨positive.resolve_left some, or_iff_not_imp_left.mpr fun groups => ?_⟩⟩
      · rw [writeCorpus_eq] at ok
        split at ok
        · cases ok
        · rename_i passes
          exact not_or.mp fun zero => passes ⟨checked, zero⟩
      · -- The needle is in row 2 of the last row group of the last file.
        have lastFile : nFiles - 1 < nFiles := by omega
        have lastGroup : rowGroupsPerFile - 1 < rowGroupsPerFile := by omega
        obtain ⟨batches, -, file⟩ := corpus.entry lastFile
        obtain ⟨batch, -, planted⟩ := file.rowGroup lastGroup
        obtain ⟨c, -, row⟩ := planted.plantable ⟨TextColumn.srcIp.name, 2, singleNeedle⟩
          (mem_injections.mpr (by simp))
        exact row
    · rintro ⟨counted, enough⟩
      exact writeCorpus_returns dataDir seed counted enough
  · intro e failed
    rw [writeCorpus_eq] at failed
    split at failed
    · exact (Except.error.inj failed).symm
    obtain ⟨fi, -, fails⟩ := mapM_error failed
    cases file : writeFile (nFiles - 1) (rowGroupsPerFile - 1) rowGroupsPerFile rowsPerGroup
        seed fi with
    | ok batches =>
        rw [file] at fails
        cases fails
    | error e' =>
        rw [file] at fails
        obtain rfl : e' = e := Except.error.inj fails
        exact writeFile_outcome.2 _ file

end Corpus

end Pdq
