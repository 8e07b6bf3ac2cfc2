/- Pdq.Theory.FiniteMap -- finite maps filled by a loop.

A map is an association list with distinct keys; its entry order stands for the
unspecified iteration order of a hash map.  `collect` is the loop that reads one
map and inserts into another.  `insertOrIntersect` is the loop body that meets
several answers about one key: the first answer is stored, a later one is
intersected with what is there.  `lookup_intersectAll` gives the whole loop: a
key is present when some answer named it, and then holds what every answer about
that key allows; answers about other keys do not matter (`meets_unique`).
`perm_flatMap_entries` frees what is collected over a map from its order. -/
import Mathlib.Data.List.AList
import Pdq.Theory.SortedSet

namespace Pdq.Theory

set_option autoImplicit false

/-- A finite map with a fixed value type. -/
abbrev FiniteMap (K V : Type) := AList fun _ : K => V

namespace FiniteMap

variable {K V W : Type} [DecidableEq K]

theorem mem_entries_iff {m : FiniteMap K V} {k : K} {v : V} :
    (⟨k, v⟩ : Sigma fun _ : K => V) ∈ m.entries ↔ m.lookup k = some v :=
  AList.mem_lookup_iff.symm

theorem mem_iff_lookup {m : FiniteMap K V} {k : K} : k ∈ m ↔ ∃ v, m.lookup k = some v := by
  rw [← AList.lookup_isSome, Option.isSome_iff_exists]

theorem mem_of_lookup {m : FiniteMap K V} {k : K} {v : V} (found : m.lookup k = some v) : k ∈ m :=
  mem_iff_lookup.mpr ⟨v, found⟩

/-! ## What holds of every entry -/

section Entries

variable {P : K → V → Prop}

theorem forall_lookup_empty (k : K) (v : V) (present : (∅ : FiniteMap K V).lookup k = some v) :
    P k v := by
  rw [AList.lookup_empty] at present
  cases present

/-- What holds of the entry inserted and of the other entries before holds of every
entry after. -/
theorem forall_lookup_insert {m : FiniteMap K V} {k : K} {v : V} (here : P k v)
    (others : ∀ k' v', k' ≠ k → m.lookup k' = some v' → P k' v') (k' : K) (v' : V)
    (present : (m.insert k v).lookup k' = some v') : P k' v' := by
  by_cases same : k' = k
  · subst same
    rw [AList.lookup_insert] at present
    cases present
    exact here
  · rw [AList.lookup_insert_ne same] at present
    exact others k' v' same present

end Entries

/-! ## Running over the entries -/

omit [DecidableEq K] in
theorem flatMap_filter_of_eq_nil {R : Type} {rows : K → List R} {p : K → Bool} {l : List K}
    (nothing : ∀ k ∈ l, p k = false → rows k = []) :
    (l.filter p).flatMap rows = l.flatMap rows := by
  induction l with
  | nil => rfl
  | cons k l ih =>
      have rest := ih fun k' member => nothing k' (List.mem_cons_of_mem k member)
      cases kept : p k with
      | true => rw [List.filter_cons_of_pos kept, List.flatMap_cons, List.flatMap_cons, rest]
      | false =>
          have empty := nothing k List.mem_cons_self kept
          rw [List.filter_cons_of_neg (by simp [kept]), List.flatMap_cons, rest, empty,
            List.nil_append]

/-- **What the entries give is what any list of keys gives that has them all.** -/
theorem perm_flatMap_entries {R : Type} (m : FiniteMap K V) (rows : K → V → List R)
    {all : List K} (nodup : all.Nodup) (covers : ∀ k ∈ m, k ∈ all) :
    (m.entries.flatMap fun e => rows e.1 e.2).Perm
      (all.flatMap fun k => ((m.lookup k).map (rows k)).getD []) := by
  have byKey : (m.entries.flatMap fun e => rows e.1 e.2) =
      m.keys.flatMap fun k => ((m.lookup k).map (rows k)).getD [] := by
    rw [AList.keys, List.keys, List.flatMap_map]
    refine List.flatMap_congr fun e member => ?_
    rw [mem_entries_iff.mp member]
    rfl
  have sameKeys : m.keys.Perm (all.filter fun k => decide (k ∈ m)) := by
    refine (List.perm_ext_iff_of_nodup m.keys_nodup (nodup.filter _)).mpr fun k => ?_
    rw [List.mem_filter, decide_eq_true_eq, ← AList.mem_keys]
    exact ⟨fun member => ⟨covers k member, member⟩, And.right⟩
  have outside : ∀ k ∈ all, decide (k ∈ m) = false →
      ((m.lookup k).map (rows k)).getD [] = [] := by
    intro k _ absent
    rw [AList.lookup_eq_none.mpr (of_decide_eq_false absent)]
    rfl
  rw [byKey, ← flatMap_filter_of_eq_nil outside]
  exact sameKeys.flatMap_right _

/-- Keys that give nothing may be left out of the list. -/
theorem perm_flatMap_entries_of_nil {R : Type} (m : FiniteMap K V) (rows : K → V → List R)
    {all : List K} (nodup : all.Nodup)
    (covers : ∀ k v, m.lookup k = some v → k ∈ all ∨ rows k v = []) :
    (m.entries.flatMap fun e => rows e.1 e.2).Perm
      (all.flatMap fun k => ((m.lookup k).map (rows k)).getD []) := by
  have apart : (all ++ m.keys.filter fun k => decide (¬ k ∈ all)).Nodup := by
    refine List.Nodup.append nodup (m.keys_nodup.filter _) fun k inAll other => ?_
    exact of_decide_eq_true (List.mem_filter.mp other).2 inAll
  have whole := perm_flatMap_entries m rows apart fun k member => by
    by_cases inAll : k ∈ all
    · exact List.mem_append_left _ inAll
    · refine List.mem_append_right _ (List.mem_filter.mpr ⟨AList.mem_keys.mp member, ?_⟩)
      exact decide_eq_true inAll
  have nothing : ((m.keys.filter fun k => decide (¬ k ∈ all)).flatMap fun k =>
      ((m.lookup k).map (rows k)).getD []) = [] := by
    refine List.flatMap_eq_nil_iff.mpr fun k other => ?_
    obtain ⟨member, outside⟩ := List.mem_filter.mp other
    obtain ⟨v, found⟩ := mem_iff_lookup.mp (AList.mem_keys.mpr member)
    rw [found, Option.map_some, Option.getD_some]
    exact (covers k v found).resolve_left (of_decide_eq_true outside)
  rwa [List.flatMap_append, nothing, List.append_nil] at whole

/-! ## Filling one map from another -/

/-- For each entry, in order, insert what `f` makes of it, if anything. -/
def collectList (f : K → V → Option W) (into : FiniteMap K W) :
    List (Sigma fun _ : K => V) → FiniteMap K W
  | [] => into
  | e :: rest =>
      match f e.1 e.2 with
      | some w => collectList f (into.insert e.1 w) rest
      | none => collectList f into rest

def collect (f : K → V → Option W) (m : FiniteMap K V) : FiniteMap K W :=
  collectList f ∅ m.entries

theorem lookup_collectList_of_not_mem (f : K → V → Option W) {k : K} :
    ∀ (l : List (Sigma fun _ : K => V)) (into : FiniteMap K W), ¬ k ∈ l.keys →
      (collectList f into l).lookup k = into.lookup k
  | [], _, _ => rfl
  | e :: rest, into, absent => by
      rw [List.keys_cons, List.mem_cons, not_or] at absent
      simp only [collectList]
      split
      · rw [lookup_collectList_of_not_mem f rest _ absent.2, AList.lookup_insert_ne absent.1]
      · exact lookup_collectList_of_not_mem f rest into absent.2

theorem lookup_collectList (f : K → V → Option W) {k : K} :
    ∀ (l : List (Sigma fun _ : K => V)) (into : FiniteMap K W), l.NodupKeys →
      into.lookup k = none → (collectList f into l).lookup k = (l.dlookup k).bind (f k)
  | [], into, _, absent => by simpa [collectList] using absent
  | ⟨k', v⟩ :: rest, into, nodup, absent => by
      obtain ⟨fresh, nodup⟩ := List.nodupKeys_cons.mp nodup
      by_cases same : k = k'
      · subst same
        rw [List.dlookup_cons_eq]
        simp only [collectList, Option.bind_some]
        split
        · rename_i w found
          rw [lookup_collectList_of_not_mem f rest _ fresh, AList.lookup_insert, found]
        · rename_i missing
          rw [lookup_collectList_of_not_mem f rest _ fresh, absent, missing]
      · rw [List.dlookup_cons_ne _ _ same]
        simp only [collectList]
        split
        · refine lookup_collectList f rest _ nodup ?_
          rw [AList.lookup_insert_ne same, absent]
        · exact lookup_collectList f rest into nodup absent

/-- **What the filling loop leaves under a key.** -/
theorem lookup_collect (f : K → V → Option W) (m : FiniteMap K V) (k : K) :
    (collect f m).lookup k = (m.lookup k).bind (f k) :=
  lookup_collectList f m.entries ∅ m.nodupKeys (AList.lookup_empty k)

/-! ## Insert or intersect -/

section Intersect

variable {G : Type} [LinearOrder G]

/-- Store the first answer about `k`; intersect a later one with what is there. -/
def insertOrIntersect (m : FiniteMap K (SortedSet G)) (k : K) (answer : SortedSet G) :
    FiniteMap K (SortedSet G) :=
  match m.lookup k with
  | some present => m.insert k (present.filter fun g => decide (g ∈ answer))
  | none => m.insert k answer

def intersectAll (m : FiniteMap K (SortedSet G)) (answers : List (K × SortedSet G)) :
    FiniteMap K (SortedSet G) :=
  answers.foldl (fun m a => insertOrIntersect m a.1 a.2) m

/-- What the answers in the loop so far leave under `k`: nothing while no answer
has named it, and otherwise the elements every answer allows. -/
def Meets (answers : List (K × SortedSet G)) (k : K) : Option (SortedSet G) → Prop
  | none => ∀ a ∈ answers, a.1 ≠ k
  | some s => (∃ a ∈ answers, a.1 = k) ∧ ∀ g, g ∈ s ↔ ∀ a ∈ answers, a.1 = k → g ∈ a.2

theorem lookup_insertOrIntersect_ne (m : FiniteMap K (SortedSet G)) {k k' : K} (ne : k ≠ k')
    (answer : SortedSet G) : (insertOrIntersect m k' answer).lookup k = m.lookup k := by
  unfold insertOrIntersect
  split <;> rw [AList.lookup_insert_ne ne]

omit [DecidableEq K] in
theorem meets_snoc_ne {answers : List (K × SortedSet G)} {k : K} {a : K × SortedSet G}
    (ne : a.1 ≠ k) (left : Option (SortedSet G)) :
    Meets answers k left → Meets (answers ++ [a]) k left := by
  cases left with
  | none =>
      intro unnamed b member
      rcases List.mem_append.mp member with earlier | last
      · exact unnamed b earlier
      · rw [List.mem_singleton.mp last]
        exact ne
  | some s =>
      rintro ⟨⟨b, member, named⟩, allowed⟩
      refine ⟨⟨b, List.mem_append_left _ member, named⟩, fun g => ?_⟩
      rw [allowed g]
      refine ⟨fun all b member => ?_, fun all b member => all b (List.mem_append_left _ member)⟩
      rcases List.mem_append.mp member with earlier | last
      · exact all b earlier
      · rw [List.mem_singleton.mp last]
        exact fun named => absurd named ne

/-- One answer: the loop body keeps `Meets`, for every key. -/
theorem meets_insertOrIntersect {answers : List (K × SortedSet G)}
    {m : FiniteMap K (SortedSet G)} {k : K} (before : Meets answers k (m.lookup k))
    (a : K × SortedSet G) :
    Meets (answers ++ [a]) k ((insertOrIntersect m a.1 a.2).lookup k) := by
  by_cases same : a.1 = k
  · subst same
    unfold insertOrIntersect
    split
    · rename_i present found
      rw [found] at before
      rw [AList.lookup_insert]
      refine ⟨⟨a, by simp, rfl⟩, fun g => ?_⟩
      rw [SortedSet.mem_filter, before.2 g, decide_eq_true_eq]
      constructor
      · rintro ⟨all, last⟩ b member named
        rcases List.mem_append.mp member with earlier | final
        · exact all b earlier named
        · rw [List.mem_singleton.mp final]
          exact last
      · intro all
        exact ⟨fun b member => all b (List.mem_append_left _ member), all a (by simp) rfl⟩
    · rename_i missing
      rw [missing] at before
      rw [AList.lookup_insert]
      refine ⟨⟨a, by simp, rfl⟩, fun g =>
        ⟨fun held b member named => ?_, fun all => all a (by simp) rfl⟩⟩
      rcases List.mem_append.mp member with earlier | final
      · exact absurd named (before b earlier)
      · rw [List.mem_singleton.mp final]
        exact held
  · rw [lookup_insertOrIntersect_ne m (Ne.symm same)]
    exact meets_snoc_ne same _ before

theorem meets_intersectAll {k : K} (rest : List (K × SortedSet G)) :
    ∀ {answers : List (K × SortedSet G)} {m : FiniteMap K (SortedSet G)},
      Meets answers k (m.lookup k) →
        Meets (answers ++ rest) k ((intersectAll m rest).lookup k) := by
  induction rest with
  | nil => intro answers m before; simpa [intersectAll] using before
  | cons a rest ih =>
      intro answers m before
      have step := ih (meets_insertOrIntersect before a)
      rwa [List.append_assoc] at step

/-- **What the loop leaves under `k`**, from an empty map. -/
theorem lookup_intersectAll (answers : List (K × SortedSet G)) (k : K) :
    Meets answers k ((intersectAll ∅ answers).lookup k) := by
  have start : Meets ([] : List (K × SortedSet G)) k
      ((∅ : FiniteMap K (SortedSet G)).lookup k) := by
    rw [AList.lookup_empty]
    intro a member
    cases member
  exact meets_intersectAll answers start

omit [DecidableEq K] in
/-- What is left under `k` has a member when some answer named `k` and every answer
that did allows it. -/
theorem Meets.mem_iff {answers : List (K × SortedSet G)} {k : K} {left : Option (SortedSet G)}
    (meets : Meets answers k left) (g : G) :
    (∃ s, left = some s ∧ g ∈ s) ↔
      (∃ a ∈ answers, a.1 = k) ∧ ∀ a ∈ answers, a.1 = k → g ∈ a.2 := by
  cases left with
  | none =>
      refine iff_of_false (by simp) ?_
      rintro ⟨⟨a, member, named⟩, -⟩
      exact meets a member named
  | some s =>
      obtain ⟨named, allowed⟩ := meets
      simp [allowed g, named]

omit [DecidableEq K] in
/-- What the answers leave under `k` is settled by the answers that name `k`. -/
theorem meets_unique {answers answers' : List (K × SortedSet G)} {k : K}
    (same : ∀ a, a.1 = k → (a ∈ answers ↔ a ∈ answers')) {left left' : Option (SortedSet G)}
    (meets : Meets answers k left) (meets' : Meets answers' k left') : left = left' := by
  cases left with
  | none =>
      cases left' with
      | none => rfl
      | some s' =>
          obtain ⟨⟨a, member, named⟩, -⟩ := meets'
          exact absurd named (meets a ((same a named).mpr member))
  | some s =>
      obtain ⟨⟨a, member, named⟩, allowed⟩ := meets
      cases left' with
      | none => exact absurd named (meets' a ((same a named).mp member))
      | some s' =>
          refine congrArg some (SortedSet.ext_mem fun g => ?_)
          rw [allowed g, meets'.2 g]
          exact ⟨fun all b member named => all b ((same b named).mpr member) named,
            fun all b member named => all b ((same b named).mp member) named⟩

end Intersect

end FiniteMap

end Pdq.Theory
