/- Pdq.Provider.SingleParse -- overlapping calls on one metadata cache.

A call looks its path up under the lock, and on a miss parses the footer outside
the lock and stores the result under the lock again.  Two calls that look one
path up before either has stored both parse it (`overlapping_misses_refuted`).
When every lookup of a path comes after the calls that missed on it have stored
what they parsed, each path is in the hands of one call at most, and no footer is
parsed twice (`parsed_once`). -/
import Mathlib.Data.List.Dedup
import Pdq.Provider.MetadataCache

namespace Pdq

open Theory

set_option autoImplicit false

namespace SingleParse

/-! ## Calls and steps -/

/-- Where a `get_metadata` call stands. -/
inductive Phase (M E : Type) where
  | idle
  /-- It has looked its path up and found nothing. -/
  | missed (key : Str)
  /-- It has parsed the footer and not stored it yet. -/
  | parsed (key : Str) (metadata : M)
  | failed (key : Str) (e : E)
  | returned (key : Str) (metadata : M)

namespace Phase

variable {M E : Type}

/-- The path the call has missed on without storing anything, and how its parse
came out, when it has made it. -/
def owed : Phase M E → Option (Str × Option Bool)
  | .missed key => some (key, none)
  | .parsed key _ => some (key, some true)
  | .failed key _ => some (key, some false)
  | .idle | .returned _ _ => none

/-- What the call has returned. -/
def result : Phase M E → Option (Except E M)
  | .returned _ metadata => some (.ok metadata)
  | .failed _ e => some (.error e)
  | _ => none

/-- The phase after a parse. -/
def afterParse (key : Str) : Except E M → Phase M E
  | .ok metadata => .parsed key metadata
  | .error e => .failed key e

end Phase

/-- The shared cache, the calls, and the footer parses made so far: the path of
each, and whether it succeeded. -/
structure State (M E : Type) where
  cache : MetadataCache M
  calls : Nat → Phase M E
  parses : List (Str × Bool)

variable {M E : Type}

namespace State

def start : State M E := ⟨.empty, fun _ => .idle, []⟩

/-- Call `i` goes to a phase. -/
def setCall (s : State M E) (i : Nat) (phase : Phase M E) : State M E :=
  { s with calls := Function.update s.calls i phase }

/-- The locked lookup. -/
def lookup (s : State M E) (i : Nat) (key : Str) : State M E :=
  match s.cache.get key with
  | (some metadata, cache) => { s.setCall i (.returned key metadata) with cache := cache }
  | (none, cache) => { s.setCall i (.missed key) with cache := cache }

/-- The footer parse. -/
def parse (s : State M E) (i : Nat) (key : Str) (outcome : Except E M) : State M E :=
  { s.setCall i (.afterParse key outcome) with parses := (key, outcome.isOk) :: s.parses }

/-- The locked insert. -/
def store (s : State M E) (i : Nat) (key : Str) (metadata : M) : State M E :=
  { s.setCall i (.returned key metadata) with cache := s.cache.insert key metadata }

/-- The distinct paths whose footer was parsed. -/
def parsedPaths (s : State M E) : List Str := ((s.parses.filter Prod.snd).map Prod.fst).dedup

end State

/-- The states reached when any calls take their steps in any order and a parse
comes out in any way; `may` says when a path may be looked up. -/
inductive Reached (may : State M E → Str → Prop) : State M E → Prop
  | start : Reached may .start
  | lookup {s : State M E} (reached : Reached may s) (i : Nat) (key : Str)
      (idle : s.calls i = .idle) (now : may s key) : Reached may (s.lookup i key)
  | parse {s : State M E} (reached : Reached may s) (i : Nat) (key : Str)
      (missed : s.calls i = .missed key) (outcome : Except E M) :
      Reached may (s.parse i key outcome)
  | store {s : State M E} (reached : Reached may s) (i : Nat) (key : Str) (metadata : M)
      (parsed : s.calls i = .parsed key metadata) : Reached may (s.store i key metadata)

/-- Every call that missed on the path has stored what it parsed. -/
def Settled (s : State M E) (key : Str) : Prop := ∀ i b, (s.calls i).owed ≠ some (key, b)

/-! ## One path, one call -/

/-- A path is in the cache, or one call at most has missed on it, and the parses
made are those of the two kinds. -/
structure Inv (s : State M E) : Prop where
  alone : ∀ i j key b c, (s.calls i).owed = some (key, b) → (s.calls j).owed = some (key, c) → i = j
  absent : ∀ i key b, (s.calls i).owed = some (key, b) → ¬ key ∈ s.cache.entries
  logged : ∀ key b, (key, b) ∈ s.parses ↔
    (b = true ∧ key ∈ s.cache.entries) ∨ ∃ i, (s.calls i).owed = some (key, some b)
  once : (s.parses.map Prod.fst).Nodup
  counted : s.cache.misses = s.cache.entries.keys.length

theorem setCall_self (s : State M E) (i : Nat) (phase : Phase M E) :
    (s.setCall i phase).calls i = phase := by
  simp [State.setCall]

/-- When one call goes to a phase, the others owe what they owed. -/
theorem owed_setCall_iff {s : State M E} {i j : Nat} {phase : Phase M E} {key : Str}
    {b : Option Bool} :
    ((s.setCall i phase).calls j).owed = some (key, b) ↔
      j = i ∧ phase.owed = some (key, b) ∨ j ≠ i ∧ (s.calls j).owed = some (key, b) := by
  simp only [State.setCall, Function.update_apply]
  split
  · rename_i same
    simp [same]
  · rename_i other
    simp [other]

theorem inv_start : Inv (State.start : State M E) where
  alone _ _ _ _ _ owed := nomatch owed
  absent _ _ _ owed := nomatch owed
  logged key b := by simp [State.start, MetadataCache.empty, Phase.owed]
  once := List.nodup_nil
  counted := rfl

/-- What a lookup does: a hit settles the call, a miss makes it owe the path. -/
theorem lookup_cases (s : State M E) (i : Nat) (key : Str) :
    (∃ metadata, s.cache.entries.lookup key = some metadata ∧ s.lookup i key =
        { s.setCall i (.returned key metadata) with
          cache := { s.cache with hits := s.cache.hits + 1 } }) ∨
      s.cache.entries.lookup key = none ∧ s.lookup i key = s.setCall i (.missed key) := by
  unfold State.lookup MetadataCache.get
  cases found : s.cache.entries.lookup key with
  | some metadata => exact Or.inl ⟨metadata, rfl, rfl⟩
  | none => exact Or.inr ⟨rfl, rfl⟩

theorem inv_hit {s : State M E} (inv : Inv s) {i : Nat} (idle : s.calls i = .idle) (key : Str)
    (metadata : M) (hits : Nat) :
    Inv { s.setCall i (.returned key metadata) with cache := { s.cache with hits := hits } } := by
  have unchanged : ∀ {j k b}, ((s.setCall i (.returned key metadata)).calls j).owed =
      some (k, b) ↔ (s.calls j).owed = some (k, b) := by
    intro j k b
    rw [owed_setCall_iff]
    by_cases same : j = i
    · simp [same, idle, Phase.owed]
    · simp [same]
  constructor
  · simpa only [unchanged] using inv.alone
  · simpa only [unchanged] using inv.absent
  · intro k b
    simp only [unchanged]
    exact inv.logged k b
  · exact inv.once
  · exact inv.counted

theorem inv_miss {s : State M E} (inv : Inv s) {i : Nat} {key : Str} (idle : s.calls i = .idle)
    (settled : Settled s key) (absent : s.cache.entries.lookup key = none) :
    Inv (s.setCall i (.missed key)) := by
  have owed : ∀ {j k b}, ((s.setCall i (.missed key)).calls j).owed = some (k, b) ↔
      j = i ∧ k = key ∧ b = none ∨ (s.calls j).owed = some (k, b) := by
    intro j k b
    rw [owed_setCall_iff]
    by_cases same : j = i
    · simp [same, idle, Phase.owed, eq_comm]
    · simp [same]
  constructor
  · intro j l k b c first second
    rcases owed.mp first with ⟨rfl, rfl, -⟩ | before
    · rcases owed.mp second with ⟨rfl, -⟩ | held
      · rfl
      · exact absurd held (settled l c)
    · rcases owed.mp second with ⟨rfl, rfl, -⟩ | held
      · exact absurd before (settled j b)
      · exact inv.alone j l k b c before held
  · intro j k b held
    rcases owed.mp held with ⟨-, rfl, -⟩ | before
    · exact AList.lookup_eq_none.mp absent
    · exact inv.absent j k b before
  · intro k b
    simp only [owed, reduceCtorEq, and_false, false_or]
    exact inv.logged k b
  · exact inv.once
  · exact inv.counted

/-- The footer of a path that a call has missed on is not parsed yet. -/
theorem Inv.unparsed {s : State M E} (inv : Inv s) {i : Nat} {key : Str}
    (missed : (s.calls i).owed = some (key, none)) : ¬ key ∈ s.parses.map Prod.fst := by
  intro member
  obtain ⟨⟨k, b⟩, logged, rfl⟩ := List.mem_map.mp member
  rcases (inv.logged k b).mp logged with ⟨-, cached⟩ | ⟨j, held⟩
  · exact inv.absent i k none missed cached
  · have same := inv.alone i j k none (some b) missed held
    subst same
    rw [missed] at held
    cases held

theorem owed_afterParse (key : Str) (outcome : Except E M) :
    (Phase.afterParse key outcome).owed = some (key, some outcome.isOk) := by
  cases outcome <;> rfl

theorem inv_parse {s : State M E} (inv : Inv s) {i : Nat} {key : Str}
    (missed : s.calls i = .missed key) (outcome : Except E M) : Inv (s.parse i key outcome) := by
  have before : (s.calls i).owed = some (key, none) := by
    rw [missed]
    rfl
  have owed : ∀ {j k b}, ((s.parse i key outcome).calls j).owed = some (k, b) ↔
      j = i ∧ k = key ∧ b = some outcome.isOk ∨ j ≠ i ∧ (s.calls j).owed = some (k, b) := by
    intro j k b
    show ((s.setCall i (.afterParse key outcome)).calls j).owed = some (k, b) ↔ _
    rw [owed_setCall_iff, owed_afterParse, Option.some.injEq, Prod.mk.injEq, eq_comm (a := key),
      eq_comm (a := some outcome.isOk)]
  -- Whoever owes a path after the parse owed it before.
  have owedBefore : ∀ {j k b}, ((s.parse i key outcome).calls j).owed = some (k, b) →
      ∃ c, (s.calls j).owed = some (k, c) := by
    intro j k b held
    rcases owed.mp held with ⟨rfl, rfl, -⟩ | ⟨-, held⟩
    · exact ⟨none, before⟩
    · exact ⟨b, held⟩
  constructor
  · intro j l k b c first second
    obtain ⟨b', first⟩ := owedBefore first
    obtain ⟨c', second⟩ := owedBefore second
    exact inv.alone j l k b' c' first second
  · intro j k b held
    obtain ⟨c, held⟩ := owedBefore held
    exact inv.absent j k c held
  · intro k b
    show (k, b) ∈ (key, outcome.isOk) :: s.parses ↔ _
    rw [List.mem_cons, inv.logged k b]
    constructor
    · rintro (same | cached | ⟨j, held⟩)
      · obtain ⟨rfl, rfl⟩ := Prod.mk.inj same
        exact Or.inr ⟨i, owed.mpr (Or.inl ⟨rfl, rfl, rfl⟩)⟩
      · exact Or.inl cached
      · refine Or.inr ⟨j, owed.mpr (Or.inr ⟨?_, held⟩)⟩
        rintro rfl
        rw [before] at held
        cases held
    · rintro (cached | ⟨j, held⟩)
      · exact Or.inr (Or.inl cached)
      · rcases owed.mp held with ⟨-, rfl, same⟩ | ⟨-, held⟩
        · exact Or.inl (by rw [Option.some.inj same])
        · exact Or.inr (Or.inr ⟨j, held⟩)
  · show (key :: s.parses.map Prod.fst).Nodup
    exact List.nodup_cons.mpr ⟨inv.unparsed before, inv.once⟩
  · exact inv.counted

theorem inv_store {s : State M E} (inv : Inv s) {i : Nat} {key : Str} {metadata : M}
    (parsed : s.calls i = .parsed key metadata) : Inv (s.store i key metadata) := by
  have before : (s.calls i).owed = some (key, some true) := by
    rw [parsed]
    rfl
  have owed : ∀ {j k b}, ((s.store i key metadata).calls j).owed = some (k, b) ↔
      j ≠ i ∧ (s.calls j).owed = some (k, b) := by
    intro j k b
    show ((s.setCall i (.returned key metadata)).calls j).owed = some (k, b) ↔ _
    rw [owed_setCall_iff]
    simp [Phase.owed]
  have cached : ∀ k, k ∈ (s.store i key metadata).cache.entries ↔ k = key ∨ k ∈ s.cache.entries :=
    fun k => AList.mem_insert s.cache.entries
  have fresh := inv.absent i key _ before
  constructor
  · intro j l k b c first second
    exact inv.alone j l k b c (owed.mp first).2 (owed.mp second).2
  · intro j k b owes known
    obtain ⟨other, held⟩ := owed.mp owes
    rcases (cached k).mp known with rfl | earlier
    · exact other (inv.alone j i k b _ held before)
    · exact inv.absent j k b held earlier
  · intro k b
    show (k, b) ∈ s.parses ↔ _
    rw [inv.logged k b, cached]
    constructor
    · rintro (⟨rfl, earlier⟩ | ⟨j, held⟩)
      · exact Or.inl ⟨rfl, Or.inr earlier⟩
      · by_cases same : j = i
        · subst same
          rw [before] at held
          cases held
          exact Or.inl ⟨rfl, Or.inl rfl⟩
        · exact Or.inr ⟨j, owed.mpr ⟨same, held⟩⟩
    · rintro (⟨rfl, rfl | earlier⟩ | ⟨j, held⟩)
      · exact Or.inr ⟨i, before⟩
      · exact Or.inl ⟨rfl, earlier⟩
      · exact Or.inr ⟨j, (owed.mp held).2⟩
  · exact inv.once
  · show s.cache.misses + 1 = (s.cache.entries.insert key metadata).keys.length
    rw [inv.counted, AList.keys, AList.keys, AList.entries_insert_of_notMem fresh]
    rfl

/-- **The invariant of orderly runs.** -/
theorem inv_of_reached {s : State M E} (reached : Reached Settled s) : Inv s := by
  induction reached with
  | start => exact inv_start
  | @lookup s _ i key idle settled ih =>
      rcases lookup_cases s i key with ⟨metadata, -, hit⟩ | ⟨absent, miss⟩
      · rw [hit]
        exact inv_hit ih idle key metadata _
      · rw [miss]
        exact inv_miss ih idle settled absent
  | parse _ i key missed outcome ih => exact inv_parse ih missed outcome
  | store _ i key metadata parsed ih => exact inv_store ih parsed

/-! ## Parses and misses -/

/-- **Each footer is parsed at most once**, and while no call is between its parse
and its insert the misses are the paths parsed, in every run that looks a path up
only when the calls that missed on it have stored what they parsed. -/
theorem parsed_once {s : State M E} (reached : Reached Settled s) :
    (∀ key, (s.parses.map Prod.fst).count key ≤ 1) ∧
      ((∀ i key metadata, s.calls i ≠ .parsed key metadata) →
        s.cache.misses = s.parsedPaths.length) := by
  have inv := inv_of_reached reached
  refine ⟨fun key => List.nodup_iff_count_le_one.mp inv.once key, fun stored => ?_⟩
  have nonePending : ∀ i key, (s.calls i).owed ≠ some (key, some true) := by
    intro i key owed
    cases phase : s.calls i with
    | parsed key' metadata => exact stored i key' metadata phase
    | idle => rw [phase] at owed; cases owed
    | missed key' => rw [phase] at owed; cases owed
    | failed key' e => rw [phase] at owed; cases owed
    | returned key' metadata => rw [phase] at owed; cases owed
  have members : ∀ key, key ∈ s.cache.entries.keys ↔ key ∈ s.parsedPaths := by
    intro key
    rw [State.parsedPaths, List.mem_dedup, List.mem_map, ← AList.mem_keys]
    constructor
    · intro cached
      have logged := (inv.logged key true).mpr (Or.inl ⟨rfl, cached⟩)
      exact ⟨(key, true), List.mem_filter.mpr ⟨logged, rfl⟩, rfl⟩
    · rintro ⟨⟨key, b⟩, member, rfl⟩
      obtain ⟨logged, succeeded⟩ := List.mem_filter.mp member
      have ok : b = true := succeeded
      subst ok
      rcases (inv.logged key true).mp logged with ⟨-, cached⟩ | ⟨i, owed⟩
      · exact cached
      · exact absurd owed (nonePending i key)
  rw [inv.counted]
  exact ((List.perm_ext_iff_of_nodup s.cache.entries.keys_nodup (List.nodup_dedup _)).mpr
    members).length_eq

/-! ## One call without interruption -/

/-- A call that takes its steps at once does what `getMetadata` does. -/
theorem getMetadata_reached {W O : Type} {may : State M E → Str → Prop} {s : State M E}
    (reached : Reached may s) {i : Nat} (idle : s.calls i = .idle)
    (inner : W → ParquetObjectReader → Option O → Except E M) (moment : W)
    (reader : ParquetReaderWithCache) (options : Option O) (now : may s reader.key) :
    ∃ s', Reached may s' ∧
      s'.cache = (getMetadata inner moment s.cache reader options).2 ∧
      (s'.calls i).result = some (getMetadata inner moment s.cache reader options).1 := by
  have looked := reached.lookup i reader.key idle now
  rcases lookup_cases s i reader.key with ⟨metadata, found, hit⟩ | ⟨absent, miss⟩
  · rcases getMetadata_cases inner moment s.cache reader options with
      ⟨metadata', found', served⟩ | ⟨missing, -⟩
    · rw [found] at found'
      cases found'
      rw [hit] at looked
      exact ⟨_, looked, by rw [served], by rw [served]; exact congrArg _ (setCall_self s i _)⟩
    · rw [found] at missing
      cases missing
  · rw [miss] at looked
    have parsed :=
      looked.parse i reader.key (setCall_self s i _) (inner moment reader.inner options)
    rcases getMetadata_cases inner moment s.cache reader options with
      ⟨metadata, found, -⟩ | ⟨-, ⟨e, failed, served⟩ | ⟨metadata, succeeded, served⟩⟩
    · rw [absent] at found
      cases found
    · rw [failed] at parsed
      exact ⟨_, parsed, by rw [served]; rfl, by rw [served]; exact congrArg _ (setCall_self _ i _)⟩
    · rw [succeeded] at parsed
      have stored := parsed.store i reader.key metadata (setCall_self _ i _)
      exact ⟨_, stored, by rw [served]; rfl, by rw [served]; exact congrArg _ (setCall_self _ i _)⟩

/-! ## Two calls for one path -/

def onePath : Str := "d/a.parquet".toList

/-- Two calls look the path up, then both parse and both store. -/
def overlapping : State Nat IndexError :=
  (((((State.start.lookup 0 onePath).lookup 1 onePath).parse 0 onePath (.ok 3)).parse 1 onePath
    (.ok 3)).store 0 onePath 3).store 1 onePath 3

/-- The two calls parse the footer of one path twice, and count two misses. -/
theorem overlapping_misses_refuted :
    Reached (fun _ _ => True) overlapping ∧
      (∀ i key metadata, overlapping.calls i ≠ .parsed key metadata) ∧
      (overlapping.parses.map Prod.fst).count onePath = 2 ∧
      overlapping.cache.misses = 2 ∧ overlapping.parsedPaths = [onePath] := by
  have both := ((Reached.start.lookup 0 onePath rfl trivial).lookup 1 onePath rfl trivial
    : Reached (fun (_ : State Nat IndexError) _ => True) _)
  have run : Reached (fun _ _ => True) overlapping :=
    (((both.parse 0 onePath rfl (.ok 3)).parse 1 onePath rfl (.ok 3)).store 0 onePath 3 rfl).store
      1 onePath 3 rfl
  refine ⟨run, fun i key metadata => ?_, by decide, rfl, by decide⟩
  match i with
  | 0 => exact nofun
  | 1 => exact nofun
  | i + 2 => exact nofun

/-- A call that comes after another for the same path has stored is a hit. -/
theorem parsed_once_sample :
    ∃ s : State Nat IndexError, Reached Settled s ∧ s.cache.stats = (1, 1) ∧
      (∀ key, (s.parses.map Prod.fst).count key ≤ 1) ∧ s.cache.misses = s.parsedPaths.length := by
  let stored : State Nat IndexError :=
    ((State.start.lookup 0 onePath).parse 0 onePath (.ok 3)).store 0 onePath 3
  have settled : Settled stored onePath := by
    intro i b
    match i with
    | 0 => exact nofun
    | i + 1 => exact nofun
  have first : Reached Settled stored :=
    ((Reached.start.lookup 0 onePath rfl fun _ _ => nofun).parse 0 onePath rfl (.ok 3)).store
      0 onePath 3 rfl
  have second := first.lookup 1 onePath rfl settled
  have once := parsed_once second
  refine ⟨_, second, rfl, once.1, once.2 fun i key metadata => ?_⟩
  match i with
  | 0 => exact nofun
  | 1 => exact nofun
  | i + 2 => exact nofun

end SingleParse

end Pdq
