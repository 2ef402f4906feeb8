import LsmGraph.Library.KeyedSort
import Mathlib.Data.List.Count

/-! # Maps that are filled in a loop and read out in an arbitrary order

A `Table` is a map with its keys in the order of insertion, filled by `upsert` (an entry that is
created when it is missing and then changed). After a loop the value under a key is what the changes
of that key, in their order, make of the initial value (`get_upsertAll`). A reader of a hash map gets
the entries in some other order; sorted and cut to a limit they are `TopRows` of the entries, and
`TopRows.unique` says when that order has no influence any more. -/

namespace Tally

variable {K V : Type}

/-! ## Tables -/

structure Table (K V : Type) where
  get : K → Option V
  keys : List K
  nodup : keys.Nodup
  mem_keys : ∀ k, k ∈ keys ↔ get k ≠ none

namespace Table

def empty : Table K V where
  get _ := none
  keys := []
  nodup := List.nodup_nil
  mem_keys _ := iff_of_false List.not_mem_nil fun h => h rfl

@[simp] theorem get_empty (k : K) : (empty : Table K V).get k = none := rfl

/-- The entries as they are read out, from the keys in the order in which they were inserted. -/
def entries (order : List K → List K) (t : Table K V) : List (K × V) :=
  (order t.keys).filterMap fun k => (t.get k).map fun v => (k, v)

/-- One value under each of the given keys. -/
def const (keys : List K) (h : keys.Nodup) [DecidableEq K] (v : V) : Table K V where
  get k := if k ∈ keys then some v else none
  keys := keys
  nodup := h
  mem_keys k := by
    split
    · rename_i hk
      exact iff_of_true hk (Option.some_ne_none v)
    · rename_i hk
      exact iff_of_false hk fun hne => hne rfl

variable [DecidableEq K]

/-- Store a value under a key. -/
def insert (t : Table K V) (k : K) (v : V) : Table K V where
  get := Function.update t.get k (some v)
  keys := if k ∈ t.keys then t.keys else t.keys ++ [k]
  nodup := by
    split
    · exact t.nodup
    · rename_i hk
      exact List.nodup_append'.mpr ⟨t.nodup, List.nodup_singleton k, by simpa using hk⟩
  mem_keys k' := by
    by_cases hk' : k' = k
    · subst hk'
      rw [Function.update_self]
      refine iff_of_true ?_ (Option.some_ne_none v)
      split
      · assumption
      · exact List.mem_append_right _ (List.mem_singleton_self _)
    · rw [Function.update_of_ne hk', ← t.mem_keys]
      split
      · exact Iff.rfl
      · rw [List.mem_append, List.mem_singleton, or_iff_left hk']

/-- Change the value under a key, which is `init` if there is none. -/
def upsert (init : V) (t : Table K V) (k : K) (change : V → V) : Table K V :=
  t.insert k (change ((t.get k).getD init))

theorem get_insert (t : Table K V) (k : K) (v : V) (k' : K) :
    (t.insert k v).get k' = if k' = k then some v else t.get k' := by
  by_cases h : k' = k
  · subst h
    rw [if_pos rfl]
    exact Function.update_self k' (some v) t.get
  · rw [if_neg h]
    exact Function.update_of_ne h (some v) t.get

/-- A loop that changes entries. -/
def upsertAll (init : V) (t : Table K V) (changes : List (K × (V → V))) : Table K V :=
  changes.foldl (fun t c => t.upsert init c.1 c.2) t

/-- What a list of changes makes of the value under a key. -/
def changed (k : K) (changes : List (K × (V → V))) (v : V) : V :=
  (changes.filter fun c => c.1 = k).foldl (fun v c => c.2 v) v

theorem changed_cons_self (c : K × (V → V)) (changes : List (K × (V → V))) (v : V) :
    changed c.1 (c :: changes) v = changed c.1 changes (c.2 v) := by
  simp [changed]

theorem changed_cons_of_ne {k : K} {c : K × (V → V)} (h : c.1 ≠ k) (changes : List (K × (V → V)))
    (v : V) : changed k (c :: changes) v = changed k changes v := by
  simp [changed, h]

theorem changed_of_notMem {k : K} {changes : List (K × (V → V))} (h : k ∉ changes.map Prod.fst)
    (v : V) : changed k changes v = v := by
  have hnone : (changes.filter fun c => c.1 = k) = [] :=
    List.filter_eq_nil_iff.mpr fun c hc hk =>
      h (List.mem_map.mpr ⟨c, hc, of_decide_eq_true hk⟩)
  rw [changed, hnone]
  rfl

theorem changed_append (k : K) (changes changes' : List (K × (V → V))) (v : V) :
    changed k (changes ++ changes') v = changed k changes' (changed k changes v) := by
  rw [changed, List.filter_append, List.foldl_append]
  rfl

/-- The same change under every key of a list. -/
theorem changed_map_const (k : K) (l : List K) (change : V → V) (v : V) :
    changed k (l.map fun k => (k, change)) v = change^[l.count k] v := by
  induction l generalizing v with
  | nil => rfl
  | cons a l ih =>
      rw [List.map_cons]
      by_cases h : a = k
      · subst h
        rw [changed_cons_self (a, change), ih, List.count_cons_self, Function.iterate_succ_apply]
      · rw [changed_cons_of_ne h, ih, List.count_cons_of_ne h]

theorem upsertAll_append (init : V) (t : Table K V) (changes changes' : List (K × (V → V))) :
    t.upsertAll init (changes ++ changes') = (t.upsertAll init changes).upsertAll init changes' :=
  List.foldl_append

/-- **The value under a key after a loop.** -/
theorem get_upsertAll (init : V) (t : Table K V) (changes : List (K × (V → V))) (k : K) :
    (t.upsertAll init changes).get k =
      if k ∈ changes.map Prod.fst then some (changed k changes ((t.get k).getD init))
      else t.get k := by
  induction changes generalizing t with
  | nil => rfl
  | cons c changes ih =>
      rw [upsertAll, List.foldl_cons, ← upsertAll, ih, upsert, get_insert, List.map_cons]
      by_cases hk : k = c.1
      · -- the entry is there from now on, whether or not it is changed again
        subst hk
        rw [if_pos rfl, Option.getD_some, if_pos List.mem_cons_self, changed_cons_self]
        split
        · rfl
        · rename_i hnot
          rw [changed_of_notMem hnot]
      · rw [if_neg hk, changed_cons_of_ne (Ne.symm hk)]
        exact if_congr (List.mem_cons.trans (or_iff_right hk)).symm rfl rfl

/-- The value under a key that was there before a loop. -/
theorem get_upsertAll_of_some {init : V} {t : Table K V} {k : K} {v : V} (h : t.get k = some v)
    (changes : List (K × (V → V))) :
    (t.upsertAll init changes).get k = some (changed k changes v) := by
  rw [get_upsertAll, h, Option.getD_some]
  split
  · rfl
  · rename_i hnot
    rw [changed_of_notMem hnot]

end Table

/-! ## Counting -/

section Counting

variable [DecidableEq K]

/-- The changes that count the keys of a list. -/
def countAll (l : List K) : List (K × (Nat → Nat)) := l.map fun k => (k, (· + 1))

theorem changed_countAll (k : K) (l : List K) (n : Nat) :
    Table.changed k (countAll l) n = n + l.count k := by
  rw [countAll, Table.changed_map_const]
  induction l.count k generalizing n with
  | zero => rfl
  | succ m ih => rw [Function.iterate_succ_apply, ih, Nat.add_right_comm, Nat.add_assoc]

/-- **A loop that counts.** -/
theorem get_countAll (l : List K) (k : K) :
    ((Table.empty : Table K Nat).upsertAll 0 (countAll l)).get k =
      if k ∈ l then some (l.count k) else none := by
  have hkeys : (countAll l).map Prod.fst = l := by
    rw [countAll, List.map_map]
    exact List.map_id l
  rw [Table.get_upsertAll, hkeys, Table.get_empty, Option.getD_none, changed_countAll, Nat.zero_add]

end Counting

/-! ## The first rows of a set -/

/-- Lists with the same keys have the same rows, if a key determines the row. -/
theorem map_eq_of_map_eq {α β κ : Type} {key : α → κ} {row : α → β} {s t : List α}
    (h : s.map key = t.map key)
    (hrow : ∀ a ∈ s, ∀ b ∈ t, key a = key b → row a = row b) : s.map row = t.map row := by
  induction s generalizing t with
  | nil =>
      cases t with
      | nil => rfl
      | cons b t => cases h
  | cons a s ih =>
      cases t with
      | nil => cases h
      | cons b t =>
          obtain ⟨hab, hst⟩ := List.cons.inj h
          rw [List.map_cons, List.map_cons, hrow a List.mem_cons_self b List.mem_cons_self hab,
            ih hst fun x hx y hy => hrow x (List.mem_cons_of_mem _ hx) y (List.mem_cons_of_mem _ hy)]

open KeyedSort

variable {α β κ : Type} [LinearOrder κ]

/-- The rows of the first `limit` of those that satisfy `P`, in the order of a key. -/
def TopRows (P : α → Prop) (key : α → κ) (row : α → β) (limit : Nat) (rows : List β) : Prop :=
  ∃ s : List α, s.Nodup ∧ (∀ a, a ∈ s ↔ P a) ∧ (s.Pairwise fun a b => key a ≤ key b) ∧
    rows = (s.take limit).map row

variable {P : α → Prop} {key : α → κ} {row : α → β} {limit : Nat} {rows rows' : List β}

/-- Sorting and cutting a list of candidates, each of which stands for one that satisfies `P`. -/
theorem topRows_sortByKey {γ : Type} {l : List γ} (stands : γ → α) {key' : γ → κ} {row' : γ → β}
    (hnodup : (l.map stands).Nodup) (hmem : ∀ a, a ∈ l.map stands ↔ P a)
    (hkey : ∀ c ∈ l, key' c = key (stands c)) (hrow : ∀ c ∈ l, row' c = row (stands c))
    (limit : Nat) : TopRows P key row limit (((sortByKey key' l).take limit).map row') := by
  have hperm := (perm_sortByKey key' l).map stands
  refine ⟨(sortByKey key' l).map stands, hperm.nodup_iff.mpr hnodup,
    fun a => hperm.mem_iff.trans (hmem a), ?_, ?_⟩
  · refine List.pairwise_map.mpr ((pairwise_sortByKey key' l).imp_of_mem fun hc hc' hle => ?_)
    rwa [← hkey _ (mem_sortByKey.mp hc), ← hkey _ (mem_sortByKey.mp hc')]
  · rw [← List.map_take, List.map_map]
    exact List.map_congr_left fun c hc => hrow c (mem_sortByKey.mp (List.mem_of_mem_take hc))

/-- Candidates made of the members of a list. -/
theorem topRows_filterMap {γ : Type} {l : List α} (hnodup : l.Nodup) {candidate : α → Option γ}
    (stands : γ → α) {key' : γ → κ} {row' : γ → β}
    (hstands : ∀ a c, candidate a = some c → stands c = a)
    (hP : ∀ a, P a ↔ a ∈ l ∧ candidate a ≠ none)
    (hkey : ∀ a ∈ l, ∀ c, candidate a = some c → key' c = key a ∧ row' c = row a) (limit : Nat) :
    TopRows P key row limit (((sortByKey key' (l.filterMap candidate)).take limit).map row') := by
  have hmem : ∀ c ∈ l.filterMap candidate, stands c ∈ l ∧ candidate (stands c) = some c := by
    intro c hc
    obtain ⟨a, ha, hac⟩ := List.mem_filterMap.mp hc
    rw [hstands a c hac]
    exact ⟨ha, hac⟩
  refine topRows_sortByKey stands ?_ (fun a => ?_) (fun c hc => ?_) (fun c hc => ?_) limit
  · rw [List.map_filterMap]
    refine List.Nodup.filterMap (fun a a' b hb hb' => ?_) hnodup
    -- a member only makes candidates that stand for it
    have hself : ∀ a, b ∈ (candidate a).map stands → b = a := by
      intro a hb
      obtain ⟨c, hc, rfl⟩ := Option.map_eq_some_iff.mp hb
      exact hstands a c hc
    exact (hself a hb).symm.trans (hself a' hb')
  · rw [List.mem_map, hP]
    constructor
    · rintro ⟨c, hc, rfl⟩
      obtain ⟨ha, hac⟩ := hmem c hc
      exact ⟨ha, hac ▸ Option.some_ne_none c⟩
    · rintro ⟨ha, hne⟩
      obtain ⟨c, hc⟩ := Option.ne_none_iff_exists'.mp hne
      exact ⟨c, List.mem_filterMap.mpr ⟨a, ha, hc⟩, hstands a c hc⟩
  · exact (hkey _ (hmem c hc).1 c (hmem c hc).2).1
  · exact (hkey _ (hmem c hc).1 c (hmem c hc).2).2

/-- Sorting rows is sorting what they are made of. -/
theorem sortByKey_map {γ : Type} (key' : β → κ) (f : γ → β) (l : List γ) :
    sortByKey key' (l.map f) = (sortByKey (fun c => key' (f c)) l).map f :=
  (List.map_insertionSort _ _ f l fun _ _ _ _ => Iff.rfl).symm

/-- Rows made of the members of a list, each kept with the member that it is made of. -/
theorem topRows_pairs {l : List α} (hnodup : l.Nodup) (make : α → Option β) (key' : β → κ)
    (limit : Nat) :
    TopRows (fun c : α × β => c.1 ∈ l ∧ make c.1 = some c.2) (fun c => key' c.2) Prod.snd limit
      ((sortByKey key' (l.filterMap make)).take limit) := by
  let pair (a : α) : Option (α × β) := (make a).map fun b => (a, b)
  have hpair : ∀ a c, pair a = some c ↔ c.1 = a ∧ make a = some c.2 := by
    intro a c
    simp only [pair, Option.map_eq_some_iff]
    constructor
    · rintro ⟨b, hb, rfl⟩
      exact ⟨rfl, hb⟩
    · rintro ⟨rfl, hb⟩
      exact ⟨c.2, hb, rfl⟩
  have hrows : l.filterMap make = (l.filterMap pair).map Prod.snd := by
    rw [List.map_filterMap]
    refine List.filterMap_congr fun a _ => ?_
    simp [pair, Function.comp_def]
  have hperm := perm_sortByKey (fun c : α × β => key' c.2) (l.filterMap pair)
  refine ⟨sortByKey (fun c => key' c.2) (l.filterMap pair), ?_, fun c => ?_,
    pairwise_sortByKey _ _, ?_⟩
  · refine hperm.nodup_iff.mpr (List.Nodup.filterMap (fun a a' c hc hc' => ?_) hnodup)
    exact ((hpair a c).mp hc).1.symm.trans ((hpair a' c).mp hc').1
  · rw [mem_sortByKey, List.mem_filterMap]
    constructor
    · rintro ⟨a, ha, hc⟩
      obtain ⟨rfl, hmake⟩ := (hpair a c).mp hc
      exact ⟨ha, hmake⟩
    · rintro ⟨ha, hmake⟩
      exact ⟨c.1, ha, (hpair c.1 c).mpr ⟨rfl, hmake⟩⟩
  · rw [hrows, sortByKey_map, List.map_take]

/-- **Reading out a table**: the entries that make a candidate, sorted and cut, are the first rows of
the keys that have one. -/
theorem topRows_entries {V γ : Type} {t : Table α V} {order : List α → List α}
    (horder : ∀ keys, (order keys).Perm keys) {candidate : α × V → Option γ} (stands : γ → α)
    {key' : γ → κ} {row' : γ → β} (hstands : ∀ k v c, candidate (k, v) = some c → stands c = k)
    (hP : ∀ k, P k ↔ ∃ v c, t.get k = some v ∧ candidate (k, v) = some c)
    (hkey : ∀ k v c, t.get k = some v → candidate (k, v) = some c →
      key' c = key k ∧ row' c = row k) (limit : Nat) :
    TopRows P key row limit
      (((sortByKey key' ((t.entries order).filterMap candidate)).take limit).map row') := by
  have hbind : ∀ {k c}, (((t.get k).map fun v => (k, v)).bind candidate) = some c ↔
      ∃ v, t.get k = some v ∧ candidate (k, v) = some c := by
    intro k c
    rw [Option.bind_map, Option.bind_eq_some_iff]
    rfl
  rw [Table.entries, List.filterMap_filterMap]
  refine topRows_filterMap ((horder t.keys).nodup_iff.mpr t.nodup) stands (fun k c hc => ?_)
    (fun k => ?_) (fun k _ c hc => ?_) limit
  · obtain ⟨v, -, hcand⟩ := hbind.mp hc
    exact hstands k v c hcand
  · rw [hP, (horder t.keys).mem_iff, t.mem_keys]
    constructor
    · rintro ⟨v, c, hget, hcand⟩
      have hsome := hbind.mpr ⟨v, hget, hcand⟩
      exact ⟨hget ▸ Option.some_ne_none v, hsome ▸ Option.some_ne_none c⟩
    · rintro ⟨-, hne⟩
      obtain ⟨c, hc⟩ := Option.ne_none_iff_exists'.mp hne
      obtain ⟨v, hget, hcand⟩ := hbind.mp hc
      exact ⟨v, c, hget, hcand⟩
  · obtain ⟨v, hget, hcand⟩ := hbind.mp hc
    exact hkey k v c hget hcand

/-- **There are no other first rows**, if candidates with one key have one row. -/
theorem TopRows.unique (h : TopRows P key row limit rows) (h' : TopRows P key row limit rows')
    (hrow : ∀ a b, P a → P b → key a = key b → row a = row b) : rows = rows' := by
  obtain ⟨s, hs, hmem, hsorted, rfl⟩ := h
  obtain ⟨t, ht, hmem', hsorted', rfl⟩ := h'
  have hperm : s.Perm t := (List.perm_ext_iff_of_nodup hs ht).mpr fun a =>
    (hmem a).trans (hmem' a).symm
  -- equal positions have equal keys, and so equal rows
  have hkeys : s.map key = t.map key := by
    have hpairwise : ∀ l : List α, (l.Pairwise fun a b => key a ≤ key b) →
        (l.map key).Pairwise (· ≤ ·) := fun l => List.pairwise_map.mpr
    exact (hperm.map key).eq_of_pairwise (fun _ _ _ _ => le_antisymm) (hpairwise s hsorted)
      (hpairwise t hsorted')
  have hrows := map_eq_of_map_eq hkeys fun a ha b hb =>
    hrow a b ((hmem a).mp ha) ((hmem' b).mp hb)
  rw [List.map_take, List.map_take, hrows]

end Tally
