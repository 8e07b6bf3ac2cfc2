/- Pdq.Provider.MetadataTraffic -- the metadata cache under any traffic.

Any number of `get_metadata` calls share the cache.  A call looks its path up under
the lock, parses the footer outside it, inserts what it parsed under the lock and
then counts the miss; a call that is given up stops where it waits, which is before
its answer is taken or while the footer is read.  The calls take these steps in any
order.  What a call returns was parsed by a call for the same path, and when all
calls are over each is in one of the accounts: a hit, a miss, a failed parse, or
given up before its parse came out (`accounted`).  So the misses are the footers
parsed.  Calls that take their answer at once and are never given up, as in
`SingleParse`, are one such traffic (`run_of_reached`). -/
import Pdq.Provider.SingleParse
import Pdq.Theory.Tally

namespace Pdq

open Theory

set_option autoImplicit false

namespace MetadataTraffic

/-! ## Calls -/

/-- Where a call stands. -/
inductive Stage (M E : Type) where
  | waiting
  /-- The path was in the cache; the answer is not taken yet. -/
  | found (metadata : M)
  | missed
  | parsed (metadata : M)
  /-- It has inserted what it parsed and not counted the miss yet. -/
  | stored (metadata : M)
  | failed (e : E)
  | returned (metadata : M) (hit : Bool)
  | dropped (hit : Bool)

namespace Stage

variable {M E : Type}

/-- The lookup was a hit. -/
def isHit : Stage M E → Bool
  | found _ | returned _ true | dropped true => true
  | _ => false

/-- The miss is counted. -/
def isCounted : Stage M E → Bool
  | returned _ false => true
  | _ => false

/-- What the call has inserted. -/
def inserted : Stage M E → Option M
  | stored metadata | returned metadata false => some metadata
  | _ => none

/-- How the parse came out, when the call has made one. -/
def outcome : Stage M E → Option (Except E M)
  | parsed metadata | stored metadata | returned metadata false => some (.ok metadata)
  | failed e => some (.error e)
  | _ => none

/-- The footer was parsed. -/
def isParsed (stage : Stage M E) : Bool := stage.outcome.any Except.isOk

def isFailed : Stage M E → Bool
  | failed _ => true
  | _ => false

/-- The call was given up while its footer was read. -/
def isAbandoned : Stage M E → Bool
  | dropped false => true
  | _ => false

def isOver : Stage M E → Bool
  | failed _ | returned _ _ | dropped _ => true
  | _ => false

end Stage

/-- The cache and the calls. -/
structure Traffic (H M E : Type) where
  cache : MetadataCache M
  stage : H → Stage M E

section Steps

variable {H M E : Type} [DecidableEq H]

namespace Traffic

def start : Traffic H M E := ⟨.empty, fun _ => .waiting⟩

def goes (s : Traffic H M E) (h : H) (stage : Stage M E) : Traffic H M E :=
  { s with stage := Function.update s.stage h stage }

/-- The locked lookup. -/
def get (key : H → Str) (s : Traffic H M E) (h : H) : Traffic H M E :=
  match s.cache.get (key h) with
  | (some metadata, cache) => { s.goes h (.found metadata) with cache := cache }
  | (none, cache) => { s.goes h .missed with cache := cache }

/-- The locked insert of `MetadataCache::insert`. -/
def store (key : H → Str) (s : Traffic H M E) (h : H) (metadata : M) : Traffic H M E :=
  { s.goes h (.stored metadata) with
    cache := { s.cache with entries := s.cache.entries.insert (key h) metadata } }

/-- The count of `MetadataCache::insert`. -/
def count (s : Traffic H M E) (h : H) (metadata : M) : Traffic H M E :=
  { s.goes h (.returned metadata false) with
    cache := { s.cache with misses := s.cache.misses + 1 } }

end Traffic

/-- The two steps of an insert make the insert. -/
theorem count_store (key : H → Str) (s : Traffic H M E) (h : H) (metadata : M) :
    ((s.store key h metadata).count h metadata).cache = s.cache.insert (key h) metadata := rfl

/-- One step of one call; `answers` says what the wrapped reader may answer it, and
`mayDrop` whether calls may be given up. -/
inductive Step (key : H → Str) (answers : H → Except E M → Prop) (mayDrop : Prop) :
    Traffic H M E → Traffic H M E → Prop
  | get {s : Traffic H M E} (h : H) (waits : s.stage h = .waiting) :
      Step key answers mayDrop s (s.get key h)
  | take {s : Traffic H M E} (h : H) (metadata : M) (waits : s.stage h = .found metadata) :
      Step key answers mayDrop s (s.goes h (.returned metadata true))
  | fail {s : Traffic H M E} (h : H) (waits : s.stage h = .missed) (e : E)
      (answered : answers h (.error e)) : Step key answers mayDrop s (s.goes h (.failed e))
  | parse {s : Traffic H M E} (h : H) (waits : s.stage h = .missed) (metadata : M)
      (answered : answers h (.ok metadata)) :
      Step key answers mayDrop s (s.goes h (.parsed metadata))
  | store {s : Traffic H M E} (h : H) (metadata : M) (waits : s.stage h = .parsed metadata) :
      Step key answers mayDrop s (s.store key h metadata)
  | count {s : Traffic H M E} (h : H) (metadata : M) (waits : s.stage h = .stored metadata) :
      Step key answers mayDrop s (s.count h metadata)
  | dropFound {s : Traffic H M E} (may : mayDrop) (h : H) (metadata : M)
      (waits : s.stage h = .found metadata) : Step key answers mayDrop s (s.goes h (.dropped true))
  | dropMissed {s : Traffic H M E} (may : mayDrop) (h : H) (waits : s.stage h = .missed) :
      Step key answers mayDrop s (s.goes h (.dropped false))

inductive Run (key : H → Str) (answers : H → Except E M → Prop) (mayDrop : Prop) :
    Traffic H M E → Prop
  | start : Run key answers mayDrop .start
  | step {s s' : Traffic H M E} (run : Run key answers mayDrop s)
      (steps : Step key answers mayDrop s s') : Run key answers mayDrop s'

end Steps

/-! ## Calls that take their answer at once -/

section AtOnce

variable {M E : Type}

/-- The path a call was made for. -/
def path : SingleParse.Phase M E → Option Str
  | .idle => none
  | .missed key | .parsed key _ | .failed key _ | .returned key _ => some key

/-- The stage of a call in some phase; `hit` says how it came to return. -/
def stageOf (hit : Bool) : SingleParse.Phase M E → Stage M E
  | .idle => .waiting
  | .missed _ => .missed
  | .parsed _ metadata => .parsed metadata
  | .failed _ e => .failed e
  | .returned _ metadata => .returned metadata hit

/-- The traffic has the cache of the state and its calls. -/
structure Mirrors (s : SingleParse.State M E) (t : Traffic Nat M E) : Prop where
  cache : t.cache = s.cache
  stages : ∀ i, ∃ hit, t.stage i = stageOf hit (s.calls i)

/-- One call moves on both sides. -/
theorem stages_update {calls : Nat → SingleParse.Phase M E} {stage : Nat → Stage M E}
    (stages : ∀ i, ∃ hit, stage i = stageOf hit (calls i)) (i : Nat) (hit : Bool)
    (phase : SingleParse.Phase M E) (j : Nat) :
    ∃ hit', Function.update stage i (stageOf hit phase) j =
      stageOf hit' (Function.update calls i phase j) := by
  by_cases here : j = i
  · exact ⟨hit, by rw [here, Function.update_self, Function.update_self]⟩
  · rw [Function.update_of_ne here, Function.update_of_ne here]
    exact stages j

/-- A lookup is a `get`, and a hit also takes the answer. -/
theorem mirrors_lookup {key : Nat → Str} {answers : Nat → Except E M → Prop}
    {s : SingleParse.State M E} {t : Traffic Nat M E} (run : Run key answers False t)
    (mirrors : Mirrors s t) {i : Nat} (idle : s.calls i = .idle) :
    ∃ t', Run key answers False t' ∧ Mirrors (s.lookup i (key i)) t' := by
  obtain ⟨hit, waits⟩ := mirrors.stages i
  rw [idle] at waits
  have looked := run.step (.get i waits)
  rcases SingleParse.lookup_cases s i (key i) with ⟨metadata, found, same⟩ | ⟨absent, same⟩
  · have get : t.get key i = { t.goes i (.found metadata) with
        cache := { s.cache with hits := s.cache.hits + 1 } } := by
      simp only [Traffic.get, MetadataCache.get, mirrors.cache, found]
    rw [get] at looked
    have taken := looked.step (.take i metadata (Function.update_self ..))
    refine ⟨_, taken, by rw [same]; rfl, ?_⟩
    rw [same]
    simp only [Traffic.goes, Function.update_idem]
    exact stages_update mirrors.stages i true (.returned (key i) metadata)
  · have get : t.get key i = t.goes i .missed := by
      simp only [Traffic.get, MetadataCache.get, mirrors.cache, absent]
      rw [Traffic.goes, ← mirrors.cache]
    rw [get] at looked
    exact ⟨_, looked, by rw [same]; exact mirrors.cache,
      by rw [same]; exact stages_update mirrors.stages i hit (.missed (key i))⟩

/-- A call keeps its path. -/
theorem agrees_before {key : Nat → Str} {calls : Nat → SingleParse.Phase M E} {i : Nat}
    {phase : SingleParse.Phase M E}
    (agrees : ∀ j k, path (Function.update calls i phase j) = some k → key j = k)
    (keeps : ∀ k, path (calls i) = some k → path phase = some k) (j : Nat) (k : Str)
    (made : path (calls j) = some k) : key j = k := by
  refine agrees j k ?_
  by_cases here : j = i
  · subst here
    rw [Function.update_self]
    exact keeps k made
  · rwa [Function.update_of_ne here]

/-- **Calls that take their answer at once are a traffic**, with the same cache,
whatever may be looked up when. -/
theorem run_of_reached {may : SingleParse.State M E → Str → Prop} {s : SingleParse.State M E}
    (reached : SingleParse.Reached may s) {key : Nat → Str}
    (agrees : ∀ i k, path (s.calls i) = some k → key i = k) :
    ∃ t, Run key (fun _ _ => True) False t ∧ Mirrors s t := by
  induction reached with
  | start => exact ⟨_, .start, rfl, fun _ => ⟨false, rfl⟩⟩
  | @lookup s _ i k idle _ ih =>
      obtain ⟨phase, calls, named⟩ : ∃ phase, (s.lookup i k).calls = Function.update s.calls i phase ∧
          path phase = some k := by
        rcases SingleParse.lookup_cases s i k with ⟨metadata, -, same⟩ | ⟨-, same⟩
        · exact ⟨.returned k metadata, by rw [same]; rfl, rfl⟩
        · exact ⟨.missed k, by rw [same]; rfl, rfl⟩
      rw [calls] at agrees
      obtain ⟨t, run, mirrors⟩ := ih (agrees_before agrees fun k' made => by
        rw [idle] at made
        cases made)
      obtain rfl := agrees i k (by rw [Function.update_self, named])
      exact mirrors_lookup run mirrors idle
  | @parse s _ i k missed outcome ih =>
      have named : path (SingleParse.Phase.afterParse k outcome) = some k := by
        cases outcome <;> rfl
      obtain ⟨t, run, mirrors⟩ := ih (agrees_before agrees fun k' made => by
        rw [missed] at made
        rw [named, ← made]
        rfl)
      obtain ⟨hit, waits⟩ := mirrors.stages i
      rw [missed] at waits
      cases outcome with
      | ok metadata =>
          exact ⟨_, run.step (.parse i waits metadata trivial), mirrors.cache,
            stages_update mirrors.stages i hit (.parsed k metadata)⟩
      | error e =>
          exact ⟨_, run.step (.fail i waits e trivial), mirrors.cache,
            stages_update mirrors.stages i hit (.failed k e)⟩
  | @store s _ i k metadata parsed ih =>
      obtain ⟨t, run, mirrors⟩ := ih (agrees_before agrees fun k' made => by
        rw [parsed] at made
        exact made)
      obtain ⟨hit, waits⟩ := mirrors.stages i
      rw [parsed] at waits
      have moved : (s.store i k metadata).calls i = .returned k metadata := Function.update_self ..
      obtain rfl := agrees i k (by rw [moved, path])
      have counted := (run.step (.store i metadata waits)).step
        (.count i metadata (Function.update_self ..))
      refine ⟨_, counted, by rw [count_store, mirrors.cache]; rfl, ?_⟩
      simp only [Traffic.count, Traffic.store, Traffic.goes, Function.update_idem]
      exact stages_update mirrors.stages i false (.returned (key i) metadata)

end AtOnce

/-! ## Where answers come from -/

section Origin

set_option linter.unusedSectionVars false

variable {H M E : Type} [DecidableEq H] {key : H → Str} {answers : H → Except E M → Prop}
  {mayDrop : Prop} {s s' : Traffic H M E}

/-- What the call has taken from the cache. -/
def Stage.taken : Stage M E → Option M
  | .found metadata | .returned metadata true => some metadata
  | _ => none

/-- What is in the cache, and what was taken from it, a call for that path has
inserted, and the wrapped reader has answered it so. -/
structure Origin (key : H → Str) (answers : H → Except E M → Prop) (s : Traffic H M E) : Prop where
  kept : ∀ h metadata, (s.stage h).inserted = some metadata → key h ∈ s.cache.entries
  entries : ∀ k metadata, s.cache.entries.lookup k = some metadata →
    ∃ h, key h = k ∧ (s.stage h).inserted = some metadata
  taken : ∀ h metadata, (s.stage h).taken = some metadata →
    ∃ h', key h' = key h ∧ (s.stage h').inserted = some metadata
  answered : ∀ h outcome, (s.stage h).outcome = some outcome → answers h outcome

theorem origin_start : Origin key answers (.start : Traffic H M E) where
  kept _ _ held := by cases held
  entries k metadata held := by
    rw [show Traffic.start.cache.entries = (∅ : FiniteMap Str M) from rfl,
      AList.lookup_empty] at held
    cases held
  taken _ _ held := by cases held
  answered _ _ held := by cases held

/-- A call that moves on without an insert. -/
theorem origin_goes (origin : Origin key answers s) {h : H} {stage : Stage M E} (hits misses : Nat)
    (inserted : stage.inserted = (s.stage h).inserted)
    (taken : ∀ metadata, stage.taken = some metadata →
      ∃ h', key h' = key h ∧ (s.stage h').inserted = some metadata)
    (outcome : ∀ outcome, stage.outcome = some outcome → answers h outcome) :
    Origin key answers ⟨⟨s.cache.entries, hits, misses⟩, Function.update s.stage h stage⟩ := by
  have same : ∀ i, (Function.update s.stage h stage i).inserted = (s.stage i).inserted := by
    intro i
    by_cases here : i = h
    · rw [here, Function.update_self, inserted]
    · rw [Function.update_of_ne here]
  constructor
  · intro i metadata held
    exact origin.kept i metadata (same i ▸ held)
  · intro k metadata held
    obtain ⟨i, at_, known⟩ := origin.entries k metadata held
    exact ⟨i, at_, (same i).trans known⟩
  · intro i metadata held
    simp only [same]
    change (Function.update s.stage h stage i).taken = some metadata at held
    by_cases here : i = h
    · subst here
      rw [Function.update_self] at held
      exact taken metadata held
    · rw [Function.update_of_ne here] at held
      exact origin.taken i metadata held
  · intro i result held
    change (Function.update s.stage h stage i).outcome = some result at held
    by_cases here : i = h
    · subst here
      rw [Function.update_self] at held
      exact outcome result held
    · rw [Function.update_of_ne here] at held
      exact origin.answered i result held

/-- A call that inserts what it parsed. -/
theorem origin_store (origin : Origin key answers s) {h : H} {metadata : M}
    (waits : s.stage h = .parsed metadata) : Origin key answers (s.store key h metadata) := by
  have self : (Function.update s.stage h (.stored metadata) h) = Stage.stored metadata :=
    Function.update_self ..
  -- What was inserted before is still there, or is replaced under its path.
  have still : ∀ i m, (s.stage i).inserted = some m →
      (Function.update s.stage h (.stored metadata) i).inserted = some m := by
    intro i m held
    have other : i ≠ h := by
      rintro rfl
      rw [waits] at held
      cases held
    rwa [Function.update_of_ne other]
  constructor
  · intro i m held
    change key i ∈ s.cache.entries.insert (key h) metadata
    change (Function.update s.stage h (.stored metadata) i).inserted = some m at held
    by_cases here : i = h
    · exact AList.mem_insert _ |>.mpr (Or.inl (here ▸ rfl))
    · rw [Function.update_of_ne here] at held
      exact AList.mem_insert _ |>.mpr (Or.inr (origin.kept i m held))
  · refine FiniteMap.forall_lookup_insert ⟨h, rfl, ?_⟩ fun k m _ held => ?_
    · change (Function.update s.stage h (.stored metadata) h).inserted = some metadata
      rw [self]
      rfl
    · obtain ⟨i, at_, known⟩ := origin.entries k m held
      exact ⟨i, at_, still i m known⟩
  · intro i m held
    change (Function.update s.stage h (.stored metadata) i).taken = some m at held
    have other : i ≠ h := by
      rintro rfl
      rw [self] at held
      cases held
    rw [Function.update_of_ne other] at held
    obtain ⟨j, at_, known⟩ := origin.taken i m held
    exact ⟨j, at_, still j m known⟩
  · intro i result held
    change (Function.update s.stage h (.stored metadata) i).outcome = some result at held
    by_cases here : i = h
    · subst here
      rw [self] at held
      exact origin.answered i result (by rw [waits]; exact held)
    · rw [Function.update_of_ne here] at held
      exact origin.answered i result held

theorem origin_get (origin : Origin key answers s) {h : H} (waits : s.stage h = .waiting) :
    Origin key answers (s.get key h) := by
  unfold Traffic.get MetadataCache.get
  cases cached : s.cache.entries.lookup (key h) with
  | some metadata =>
      refine origin_goes origin _ _ (by rw [waits]; rfl) (fun m held => ?_) fun _ held => ?_
      · cases held
        exact origin.entries _ _ cached
      · cases held
  | none =>
      refine origin_goes origin _ _ (by rw [waits]; rfl) (fun m held => ?_) fun _ held => ?_
      · cases held
      · cases held

/-- **Where answers come from**, in any run. -/
theorem origin_of_run (run : Run key answers mayDrop s) : Origin key answers s := by
  induction run with
  | start => exact origin_start
  | @step s s' _ steps ih =>
      cases steps with
      | get h waits => exact origin_get ih waits
      | take h metadata waits =>
          refine origin_goes ih _ _ (by rw [waits]; rfl) (fun m held => ?_) fun _ held => ?_
          · exact ih.taken h m (by rw [waits]; exact held)
          · cases held
      | fail h waits e answered =>
          refine origin_goes ih _ _ (by rw [waits]; rfl) (fun m held => ?_) fun _ held => ?_
          · cases held
          · cases held
            exact answered
      | parse h waits metadata answered =>
          refine origin_goes ih _ _ (by rw [waits]; rfl) (fun m held => ?_) fun _ held => ?_
          · cases held
          · cases held
            exact answered
      | store h metadata waits => exact origin_store ih waits
      | count h metadata waits =>
          refine origin_goes ih _ _ (by rw [waits]; rfl) (fun m held => ?_) fun _ held => ?_
          · cases held
          · exact ih.answered h _ (by rw [waits]; exact held)
      | dropFound _ h metadata waits =>
          refine origin_goes ih _ _ (by rw [waits]; rfl) (fun m held => ?_) fun _ held => ?_
          · cases held
          · cases held
      | dropMissed _ h waits =>
          refine origin_goes ih _ _ (by rw [waits]; rfl) (fun m held => ?_) fun _ held => ?_
          · cases held
          · cases held

end Origin

/-! ## Accounts -/

section Accounts

variable {H M E : Type} [DecidableEq H] [Fintype H] {key : H → Str}
  {answers : H → Except E M → Prop} {mayDrop : Prop} {s s' : Traffic H M E}

/-- The counters are those of the calls. -/
def Counted (hits misses : Nat) (stage : H → Stage M E) : Prop :=
  hits = tally Stage.isHit stage ∧ misses = tally Stage.isCounted stage

/-- When a call moves, its accounts move with it. -/
theorem counted_goes {hits misses hits' misses' : Nat} {stage : H → Stage M E}
    (counted : Counted hits misses stage) {h : H} {before after : Stage M E}
    (waits : stage h = before) (moved : hits' + before.isHit.toNat = hits + after.isHit.toNat)
    (moved' : misses' + before.isCounted.toNat = misses + after.isCounted.toNat) :
    Counted hits' misses' (Function.update stage h after) := by
  have first := tally_update Stage.isHit stage h after
  have second := tally_update Stage.isCounted stage h after
  rw [waits] at first second
  obtain ⟨same, same'⟩ := counted
  constructor <;> omega

/-- **The counters count the hits and the misses**, in any run. -/
theorem counted_of_run (run : Run key answers mayDrop s) :
    Counted s.cache.hits s.cache.misses s.stage := by
  induction run with
  | start => exact ⟨(tally_eq_zero fun _ => rfl).symm, (tally_eq_zero fun _ => rfl).symm⟩
  | @step s s' _ steps ih =>
      cases steps with
      | get h waits =>
          unfold Traffic.get MetadataCache.get
          cases s.cache.entries.lookup (key h) with
          | some metadata => exact counted_goes ih waits rfl rfl
          | none => exact counted_goes ih waits rfl rfl
      | take h metadata waits => exact counted_goes ih waits rfl rfl
      | fail h waits e answered => exact counted_goes ih waits rfl rfl
      | parse h waits metadata answered => exact counted_goes ih waits rfl rfl
      | store h metadata waits => exact counted_goes ih waits rfl rfl
      | count h metadata waits => exact counted_goes ih waits rfl rfl
      | dropFound may h metadata waits => exact counted_goes ih waits rfl rfl
      | dropMissed may h waits => exact counted_goes ih waits rfl rfl

/-- A call that is over is in one account. -/
theorem one_account {stage : Stage M E} (ended : stage.isOver = true) :
    ([Stage.isHit, Stage.isCounted, Stage.isFailed, Stage.isAbandoned].map
      fun account => (account stage).toNat).sum = 1 := by
  cases stage with
  | returned metadata hit => cases hit <;> rfl
  | dropped hit => cases hit <;> rfl
  | failed e => rfl
  | _ => cases ended

/-- A call that is over has counted its miss when it has parsed a footer. -/
theorem isCounted_of_over {stage : Stage M E} (ended : stage.isOver = true) :
    stage.isCounted = stage.isParsed := by
  cases stage with
  | returned metadata hit => cases hit <;> rfl
  | dropped hit => rfl
  | failed e => rfl
  | _ => cases ended

theorem outcome_of_inserted {stage : Stage M E} {metadata : M}
    (inserted : stage.inserted = some metadata) : stage.outcome = some (.ok metadata) := by
  cases stage with
  | stored m => exact congrArg (Option.map Except.ok) inserted
  | returned m hit =>
      cases hit with
      | true => cases inserted
      | false => exact congrArg (Option.map Except.ok) inserted
  | _ => cases inserted

/-- A call that is over has inserted what it parsed. -/
theorem inserted_of_parsed {stage : Stage M E} (ended : stage.isOver = true)
    (parsed : stage.isParsed = true) : ∃ metadata, stage.inserted = some metadata := by
  cases stage with
  | returned metadata hit =>
      cases hit with
      | true => cases parsed
      | false => exact ⟨metadata, rfl⟩
  | dropped hit => cases parsed
  | failed e => cases parsed
  | _ => cases ended

/-- The paths whose footer some call has parsed. -/
def parsedPaths (key : H → Str) (s : Traffic H M E) : Finset Str :=
  (Finset.univ.filter fun h => (s.stage h).isParsed = true).image key

/-- **Under any traffic** what a call returns was parsed by a call for its path; and
when all calls are over each is a hit, a miss, a failure or was given up, the misses
are the footers parsed, and the cache has an entry for each of their paths. -/
theorem accounted (run : Run key answers mayDrop s) :
    (∀ h metadata hit, s.stage h = .returned metadata hit →
        ∃ h', key h' = key h ∧ (s.stage h').outcome = some (.ok metadata) ∧
          answers h' (.ok metadata)) ∧
      ((∀ h, (s.stage h).isOver = true) →
        s.cache.stats.1 + s.cache.stats.2 + tally Stage.isFailed s.stage +
            tally Stage.isAbandoned s.stage = Fintype.card H ∧
          s.cache.stats.2 = tally Stage.isParsed s.stage ∧
          s.cache.entries.keys.toFinset = parsedPaths key s) := by
  have origin := origin_of_run run
  obtain ⟨hits, misses⟩ := counted_of_run run
  constructor
  · intro h metadata hit returned
    cases hit with
    | false =>
        have parsed : (s.stage h).outcome = some (.ok metadata) := by
          rw [returned]
          rfl
        exact ⟨h, rfl, parsed, origin.answered h _ parsed⟩
    | true =>
        obtain ⟨h', same, inserted⟩ := origin.taken h metadata (by rw [returned]; rfl)
        have parsed := outcome_of_inserted inserted
        exact ⟨h', same, parsed, origin.answered h' _ parsed⟩
  · intro ended
    refine ⟨?_, ?_, ?_⟩
    · have all := sum_tally_eq_card fun h => one_account (ended h)
      simp only [List.map_cons, List.map_nil, List.sum_cons, List.sum_nil, ← hits, ← misses] at all
      simp only [MetadataCache.stats]
      omega
    · rw [← tally_congr fun h => isCounted_of_over (ended h), ← misses]
      rfl
    · ext k
      rw [List.mem_toFinset, ← AList.mem_keys, parsedPaths, Finset.mem_image]
      constructor
      · intro member
        obtain ⟨metadata, found⟩ := FiniteMap.mem_iff_lookup.mp member
        obtain ⟨h, here, inserted⟩ := origin.entries k metadata found
        refine ⟨h, Finset.mem_filter.mpr ⟨Finset.mem_univ h, ?_⟩, here⟩
        rw [Stage.isParsed, outcome_of_inserted inserted]
        rfl
      · rintro ⟨h, member, rfl⟩
        obtain ⟨metadata, inserted⟩ :=
          inserted_of_parsed (ended h) (Finset.mem_filter.mp member).2
        exact origin.kept h metadata inserted

end Accounts

/-! ## Three calls for one path -/

def footerPath : Fin 3 → Str := fun _ => "d/a.parquet".toList

/-- Two calls overlap and parse one footer twice; the third finds it. -/
def threeCalls : Traffic (Fin 3) Nat IndexError :=
  let missed : Traffic (Fin 3) Nat IndexError := (Traffic.start.get footerPath 0).get footerPath 1
  let parsed := (missed.goes 0 (.parsed 3)).goes 1 (.parsed 3)
  let cached := ((parsed.store footerPath 0 3).count 0 3).get footerPath 2
  ((cached.store footerPath 1 3).count 1 3).goes 2 (.returned 3 true)

/-- The footer has three row groups. -/
def threeGroups : Fin 3 → Except IndexError Nat → Prop := fun _ outcome => outcome = .ok 3

theorem run_threeCalls : Run footerPath threeGroups False threeCalls := by
  have missed := ((Run.start : Run footerPath threeGroups False _).step (.get 0 rfl)).step
    (.get 1 rfl)
  have parsed := (missed.step (.parse 0 rfl 3 rfl)).step (.parse 1 rfl 3 rfl)
  have cached := ((parsed.step (.store 0 3 rfl)).step (.count 0 3 rfl)).step (.get 2 rfl)
  exact ((cached.step (.store 1 3 rfl)).step (.count 1 3 rfl)).step (.take 2 3 rfl)

theorem accounted_sample :
    threeCalls.cache.stats = (1, 2) ∧
      threeCalls.cache.stats.1 + threeCalls.cache.stats.2 + tally Stage.isFailed threeCalls.stage +
          tally Stage.isAbandoned threeCalls.stage = 3 ∧
      threeCalls.cache.stats.2 = tally Stage.isParsed threeCalls.stage ∧
      threeCalls.cache.entries.keys.toFinset = parsedPaths footerPath threeCalls :=
  ⟨rfl, (accounted run_threeCalls).2 (by decide)⟩

end MetadataTraffic

end Pdq
