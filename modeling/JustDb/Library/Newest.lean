import JustDb.Library.Layered
import Mathlib.Data.List.AList
import Mathlib.Data.List.MinMax
import Mathlib.Data.List.Sort
import Mathlib.Order.Lattice

/-!
# Keeping the newest version of every key

Versions of keys arrive in any order; a map keeps, for each key, a version that
no later arrival outranks.  `collect` is that fold.  `Summarizes` is its
invariant: the map holds a newest version of every key seen so far.  When the
versions come from a stack of ranked layers, the map holds what a search of the
stack finds, whatever the order of arrival.
-/

namespace Newest

variable {κ ν ρ : Type*} [DecidableEq κ] [LinearOrder ρ]

/-- A finite map from keys to versions. -/
abbrev Table (κ ν : Type*) := AList fun _ : κ => ν

/-- Keep the version already held unless the new one outranks it. -/
def absorb (rank : ν → ρ) (table : Table κ ν) (version : κ × ν) : Table κ ν :=
  match table.lookup version.1 with
  | some held => if rank version.2 ≤ rank held then table else table.insert version.1 version.2
  | none => table.insert version.1 version.2

/-- Absorb a list of versions, in order. -/
def collect (rank : ν → ρ) (table : Table κ ν) (versions : List (κ × ν)) : Table κ ν :=
  versions.foldl (absorb rank) table

theorem collect_append (rank : ν → ρ) (table : Table κ ν) (first second : List (κ × ν)) :
    collect rank table (first ++ second) = collect rank (collect rank table first) second :=
  List.foldl_append

/-- A loop over sources that each collect their versions collects them all. -/
theorem foldlM_collect {ε Source : Type*} {rank : ν → ρ} {sources : List Source}
    {step : Table κ ν → Source → Except ε (Table κ ν)} {versions : Source → List (κ × ν)}
    (steps : ∀ source ∈ sources, ∀ table,
      step table source = .ok (collect rank table (versions source))) (table : Table κ ν) :
    sources.foldlM step table = .ok (collect rank table (sources.flatMap versions)) := by
  induction sources generalizing table with
  | nil => rfl
  | cons source sources ih =>
      rw [List.foldlM_cons, steps source List.mem_cons_self, List.flatMap_cons, collect_append]
      exact ih (fun other member => steps other (List.mem_cons_of_mem _ member)) _

theorem absorb_lookup_ne (rank : ν → ρ) (table : Table κ ν) (version : κ × ν)
    {key : κ} (different : key ≠ version.1) :
    (absorb rank table version).lookup key = table.lookup key := by
  unfold absorb
  split
  · split
    · rfl
    · exact AList.lookup_insert_ne different
  · exact AList.lookup_insert_ne different

/-- A key that arrives is held, with the version that outranks the other. -/
theorem absorb_lookup_self (rank : ν → ρ) (table : Table κ ν) (key : κ) (value : ν) :
    (absorb rank table (key, value)).lookup key =
      some (match table.lookup key with
        | some held => if rank value ≤ rank held then held else value
        | none => value) := by
  unfold absorb
  cases before : table.lookup key with
  | none => exact AList.lookup_insert table
  | some held =>
      dsimp only
      split
      · exact before
      · exact AList.lookup_insert table

/-- What the arrival of a version makes of the one that is held under a key. -/
def follow (rank : ν → ρ) (key : κ) (held : Option ν) (version : κ × ν) : Option ν :=
  if key = version.1 then
    some (match held with
      | some held => if rank version.2 ≤ rank held then held else version.2
      | none => version.2)
  else held

/-- Under each key the versions are followed in their order. -/
theorem lookup_collect (rank : ν → ρ) (table : Table κ ν) (versions : List (κ × ν)) (key : κ) :
    (collect rank table versions).lookup key =
      versions.foldl (follow rank key) (table.lookup key) := by
  induction versions generalizing table with
  | nil => rfl
  | cons version versions ih =>
      have arrived : (absorb rank table version).lookup key =
          follow rank key (table.lookup key) version := by
        by_cases same : key = version.1
        · rw [follow.eq_def, if_pos same, same]
          exact absorb_lookup_self rank table version.1 version.2
        · rw [follow.eq_def, if_neg same]
          exact absorb_lookup_ne rank table version same
      rw [collect, List.foldl_cons, List.foldl_cons, ← arrived]
      exact ih _

/-- Versions of one key are followed to the first of those that none outranks. -/
theorem foldl_follow (rank : ν → ρ) (versions : List (κ × ν)) (key : κ) :
    versions.foldl (follow rank key) none =
      ((versions.filter fun version => version.1 = key).map Prod.snd).argmax rank := by
  induction versions using List.reverseRecOn with
  | nil => rfl
  | append_singleton versions version ih =>
      rw [List.foldl_append, List.foldl_cons, List.foldl_nil, ih, List.filter_append,
        List.map_append, follow.eq_def]
      by_cases own : key = version.1
      · have kept : [version].filter (fun version => version.1 = key) = [version] :=
          List.filter_cons_of_pos (decide_eq_true own.symm)
        rw [if_pos own, kept, List.map_singleton, List.argmax_concat]
        cases List.argmax rank _ with
        | none => rfl
        | some held =>
            dsimp only
            split
            next outranked => rw [if_neg (not_lt.mpr outranked)]
            next outranks => rw [if_pos (not_le.mp outranks)]
      · have dropped : [version].filter (fun version => version.1 = key) = [] :=
          List.filter_cons_of_neg fun keyed => own (of_decide_eq_true keyed).symm
        rw [if_neg own, dropped, List.map_nil, List.append_nil]

/-- A table collects, under each key, the first of the versions that none outranks. -/
theorem lookup_collect_empty (rank : ν → ρ) (versions : List (κ × ν)) (key : κ) :
    (collect rank ∅ versions).lookup key =
      ((versions.filter fun version => version.1 = key).map Prod.snd).argmax rank := by
  rw [lookup_collect, ← foldl_follow]
  rfl

/-- The first of the items that none outranks, seen through a function. -/
theorem argmax_map {α : Type*} (view : α → ν) (rank : ν → ρ) (items : List α) :
    (items.map view).argmax rank = (items.argmax fun item => rank (view item)).map view := by
  induction items with
  | nil => rfl
  | cons item items ih =>
      rw [List.map_cons, List.argmax_cons, List.argmax_cons, ih]
      cases List.argmax (fun item => rank (view item)) items with
      | none => rfl
      | some later =>
          dsimp only [Option.map_some]
          split <;> rfl

/-- Of versions whose keys differ, those of one key are at most one. -/
theorem filter_key_eq {versions : List (κ × ν)} {key : κ} {held : Option ν}
    (distinct : versions.Pairwise fun left right => left.1 ≠ right.1)
    (holds : ∀ value, (key, value) ∈ versions ↔ held = some value) :
    (versions.filter fun version => version.1 = key) = (held.map (Prod.mk key)).toList := by
  cases held with
  | none =>
      refine List.filter_eq_nil_iff.mpr fun version member => ?_
      intro keyed
      obtain rfl := of_decide_eq_true keyed
      cases (holds version.2).mp member
  | some value =>
      have member := (holds value).mpr rfl
      obtain ⟨before, after, rfl⟩ := List.append_of_mem member
      obtain ⟨-, later, earlier⟩ := List.pairwise_append.mp distinct
      have none_before : before.filter (fun version => version.1 = key) = [] := by
        refine List.filter_eq_nil_iff.mpr fun version front => ?_
        simpa using earlier version front (key, value) List.mem_cons_self
      have none_after : after.filter (fun version => version.1 = key) = [] := by
        refine List.filter_eq_nil_iff.mpr fun version back => ?_
        simpa using ((List.pairwise_cons.mp later).1 version back).symm
      rw [List.filter_append, none_before, List.filter_cons, if_pos (by simp), none_after]
      rfl

/-- Keys are collected apart from each other: leaving the versions of some keys out takes
these keys from the table and nothing else. -/
theorem lookup_collect_filter (rank : ν → ρ) (versions : List (κ × ν)) (keep : κ → Prop)
    [DecidablePred keep] (key : κ) :
    (collect rank ∅ (versions.filter fun version => keep version.1)).lookup key =
      if keep key then (collect rank ∅ versions).lookup key else none := by
  rw [lookup_collect, lookup_collect, List.foldl_filter]
  split
  next kept =>
    congr 1
    funext held version
    by_cases own : key = version.1
    · simp only [← own, kept, decide_true, if_true]
    · simp [follow, own]
  next dropped =>
    induction versions with
    | nil => rfl
    | cons version versions ih =>
        have ignored : (if decide (keep version.1) = true then
            follow rank key ((∅ : Table κ ν).lookup key) version
          else (∅ : Table κ ν).lookup key) = (∅ : Table κ ν).lookup key := by
          split
          next kept =>
            have different : key ≠ version.1 := by
              rintro rfl
              exact dropped (of_decide_eq_true kept)
            exact if_neg different
          · rfl
        rw [List.foldl_cons, ignored]
        exact ih

/-- `kept` is a version of `key` among `versions` that none of them outranks. -/
def IsNewest (rank : ν → ρ) (versions : List (κ × ν)) (key : κ) (kept : ν) : Prop :=
  (key, kept) ∈ versions ∧ ∀ other, (key, other) ∈ versions → rank other ≤ rank kept

/-- The table holds a newest version of every key that occurs in `seen`, and no
other key. -/
structure Summarizes (rank : ν → ρ) (seen : List (κ × ν)) (table : Table κ ν) : Prop where
  newest : ∀ {key kept}, table.lookup key = some kept → IsNewest rank seen key kept
  absent : ∀ {key}, table.lookup key = none → ∀ other, (key, other) ∉ seen

theorem summarizes_empty (rank : ν → ρ) :
    Summarizes rank [] (∅ : Table κ ν) := by
  constructor <;> simp

omit [DecidableEq κ] in
/-- Versions of other keys do not matter to a newest version. -/
theorem IsNewest.snoc_ne {rank : ν → ρ} {seen : List (κ × ν)} {key arrived : κ}
    {kept value : ν} (newest : IsNewest rank seen key kept) (different : key ≠ arrived) :
    IsNewest rank (seen ++ [(arrived, value)]) key kept := by
  refine ⟨List.mem_append_left _ newest.1, fun other member => ?_⟩
  rcases List.mem_append.mp member with earlier | last
  · exact newest.2 other earlier
  · exact absurd (Prod.mk.inj (List.mem_singleton.mp last)).1 different

/-- One arrival: the table summarizes one version more. -/
theorem Summarizes.absorb {rank : ν → ρ} {seen : List (κ × ν)} {table : Table κ ν}
    (summary : Summarizes rank seen table) (version : κ × ν) :
    Summarizes rank (seen ++ [version]) (absorb rank table version) := by
  obtain ⟨arrived, value⟩ := version
  constructor
  · intro key kept held
    by_cases same : key = arrived
    · subst same
      rw [absorb_lookup_self, Option.some.injEq] at held
      cases before : table.lookup key with
      | none =>
          rw [before] at held
          subst held
          refine ⟨List.mem_append_right _ List.mem_cons_self, fun other member => ?_⟩
          rcases List.mem_append.mp member with earlier | last
          · exact absurd earlier (summary.absent before other)
          · rw [(Prod.mk.inj (List.mem_singleton.mp last)).2]
      | some old =>
          have oldNewest := summary.newest before
          rw [before] at held
          dsimp only at held
          split at held
          next outranked =>
            subst held
            refine ⟨List.mem_append_left _ oldNewest.1, fun other member => ?_⟩
            rcases List.mem_append.mp member with earlier | last
            · exact oldNewest.2 other earlier
            · rwa [(Prod.mk.inj (List.mem_singleton.mp last)).2]
          next outranks =>
            subst held
            refine ⟨List.mem_append_right _ List.mem_cons_self, fun other member => ?_⟩
            rcases List.mem_append.mp member with earlier | last
            · exact (oldNewest.2 other earlier).trans (le_of_lt (not_le.mp outranks))
            · rw [(Prod.mk.inj (List.mem_singleton.mp last)).2]
    · rw [absorb_lookup_ne rank table _ same] at held
      exact (summary.newest held).snoc_ne same
  · intro key missing other member
    by_cases same : key = arrived
    · subst same
      rw [absorb_lookup_self] at missing
      cases missing
    · rw [absorb_lookup_ne rank table _ same] at missing
      rcases List.mem_append.mp member with earlier | last
      · exact summary.absent missing other earlier
      · exact same (Prod.mk.inj (List.mem_singleton.mp last)).1

theorem Summarizes.collect {rank : ν → ρ} {seen : List (κ × ν)} {table : Table κ ν}
    (summary : Summarizes rank seen table) (versions : List (κ × ν)) :
    Summarizes rank (seen ++ versions) (collect rank table versions) := by
  induction versions generalizing seen table with
  | nil => simpa [Newest.collect] using summary
  | cons version versions ih =>
      have rest := ih (summary.absorb version)
      rwa [List.append_assoc, List.singleton_append] at rest

/-- The versions of a key in a stack of ranked layers are summarized, in whatever
order they arrive, by the version found first. -/
theorem Summarizes.lookup_eq_findSome? {rank : ν → ρ} {seen : List (κ × ν)}
    {table : Table κ ν} (summary : Summarizes rank seen table)
    {layers : List (κ → Option ν)} (descending : Layered.Descending rank layers) {key : κ}
    (arrived : ∀ value, (key, value) ∈ seen ↔ value ∈ Layered.versions layers key) :
    table.lookup key = layers.findSome? fun layer => layer key := by
  cases held : table.lookup key with
  | none =>
      have absent := summary.absent held
      symm
      rw [Layered.findSome?_eq_head?, List.head?_eq_none_iff,
        List.eq_nil_iff_forall_not_mem]
      exact fun value member => absent value ((arrived value).mpr member)
  | some kept =>
      obtain ⟨member, greatest⟩ := summary.newest held
      symm
      refine (descending.findSome?_eq_some key kept).mpr ⟨(arrived kept).mp member, ?_⟩
      intro other otherMem
      have below := greatest other ((arrived other).mpr otherMem)
      rcases below.lt_or_eq with lower | equal
      · exact .inr lower
      · exact .inl (descending.eq_of_rank_eq otherMem ((arrived kept).mp member) equal)

/-- Versions of keys that are new to the table and differ from each other go in as
they come. -/
theorem collect_eq_foldl_insert (rank : ν → ρ) {table : Table κ ν} {versions : List (κ × ν)}
    (fresh : ∀ version ∈ versions, table.lookup version.1 = none)
    (distinct : versions.Pairwise fun left right => left.1 ≠ right.1) :
    collect rank table versions =
      versions.foldl (fun held version => held.insert version.1 version.2) table := by
  induction versions generalizing table with
  | nil => rfl
  | cons version versions ih =>
      obtain ⟨apart, later⟩ := List.pairwise_cons.mp distinct
      have inserted : absorb rank table version = table.insert version.1 version.2 := by
        rw [absorb, fresh version List.mem_cons_self]
      have still : ∀ other ∈ versions,
          (table.insert version.1 version.2).lookup other.1 = none := by
        intro other member
        rw [AList.lookup_insert_ne (apart other member).symm]
        exact fresh other (List.mem_cons_of_mem _ member)
      rw [collect, List.foldl_cons, List.foldl_cons, inserted]
      exact ih still later

/-! ## Listing in order -/

/-- Items whose positions differ are strictly ascending once sorted. -/
theorem pairwise_lt_insertionSort {α : Type*} {position : α → ρ} {items : List α}
    (distinct : items.Pairwise fun left right => position left ≠ position right) :
    (items.insertionSort fun left right => position left ≤ position right).Pairwise
      fun left right => position left < position right := by
  have sorted := List.pairwise_insertionSort
    (fun left right : α => position left ≤ position right) items
  have different : (items.insertionSort fun left right =>
      position left ≤ position right).Pairwise fun left right =>
        position left ≠ position right :=
    distinct.perm (List.perm_insertionSort _ _).symm fun apart => apart.symm
  exact (sorted.and different).imp fun both => lt_of_le_of_ne both.1 both.2

/-- In a sorted list, the item found is the one that comes before all others that
satisfy the predicate. -/
theorem find?_eq_some_of_least {α : Type*} {position : α → ρ}
    {holds : α → Bool} {items : List α} {item : α}
    (sorted : items.Pairwise fun left right => position left ≤ position right)
    (member : item ∈ items) (here : holds item = true)
    (least : ∀ other ∈ items, holds other = true → other ≠ item →
      position item < position other) :
    items.find? holds = some item := by
  induction items with
  | nil => cases member
  | cons head tail ih =>
      obtain ⟨below, sorted⟩ := List.pairwise_cons.mp sorted
      rw [List.find?_cons]
      cases first : holds head with
      | true =>
          by_cases same : head = item
          · rw [same]
          · have behind : item ∈ tail :=
              (List.mem_cons.mp member).resolve_left fun equal => same equal.symm
            exact absurd (least head List.mem_cons_self first same) (not_lt.mpr (below item behind))
      | false =>
          have behind : item ∈ tail := by
            refine (List.mem_cons.mp member).resolve_left fun equal => ?_
            rw [equal, first] at here
            cases here
          exact ih sorted behind fun other otherMem =>
            least other (List.mem_cons_of_mem _ otherMem)

/-- The only item that satisfies the predicate is found. -/
theorem find?_eq_some_of_only {α : Type*} {holds : α → Bool} {items : List α} {item : α}
    (member : item ∈ items) (here : holds item = true)
    (only : ∀ other ∈ items, holds other = true → other = item) :
    items.find? holds = some item := by
  have sorted : items.Pairwise fun left right => (fun _ => 0) left ≤ (fun _ => 0) right :=
    List.pairwise_of_forall fun _ _ => le_rfl
  refine find?_eq_some_of_least sorted member here ?_
  exact fun other otherMem holdsOther different => absurd (only other otherMem holdsOther) different

/-- Taking out items other than the one that is found does not change what is found. -/
theorem find?_filter_of_found {α : Type*} {keep holds : α → Bool} {items : List α}
    (found : ∀ item, items.find? holds = some item → keep item = true) :
    (items.filter keep).find? holds = items.find? holds := by
  induction items with
  | nil => rfl
  | cons head tail ih =>
      rw [List.find?_cons] at found ⊢
      cases first : holds head with
      | true =>
          rw [first] at found
          rw [List.filter_cons, if_pos (found head rfl), List.find?_cons, first]
      | false =>
          rw [first] at found
          rw [List.filter_cons]
          split
          · rw [List.find?_cons, first]
            exact ih found
          · exact ih found

end Newest
