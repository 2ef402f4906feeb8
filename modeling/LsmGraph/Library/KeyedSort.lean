import Mathlib.Data.List.Destutter
import Mathlib.Data.List.Sort
import Mathlib.Data.Set.Function
import Mathlib.Order.Lattice

/-! # Sorting by a key and keeping the first element of each key

`sortByKey key l` is the stable sort of `l` by `key`, and `firstByKey key seen l` keeps, in order,
the elements of `l` whose key was neither in `seen` nor met earlier. Sorting by a key refined with
a secondary order and then keeping the first of each key is how a merge picks one representative
per key; `rel_of_mem_firstByKey` says which one. On a sorted list that is what dropping repeated
neighbours does (`dedupByKey_eq_firstByKey`). A list strictly ascending in its key is determined by
its members (`eq_of_ascending_of_mem_iff`). `insertByKey` is insertion into an ordered map kept as
the ascending list of its values, and `extendGroup` appends to one list of an ordered map of
lists, each of which holds the elements of its key (`GroupedBy`). -/

namespace KeyedSort

variable {α κ μ : Type*} [LinearOrder κ]

/-! ## Stable sort by a key -/

/-- The stable sort of a list by a key: elements with equal keys keep their order. -/
def sortByKey (key : α → κ) (l : List α) : List α :=
  l.insertionSort fun a b => key a ≤ key b

/-- Sorting permutes the list. -/
theorem perm_sortByKey (key : α → κ) (l : List α) : (sortByKey key l).Perm l :=
  List.perm_insertionSort _ l

@[simp] theorem mem_sortByKey {key : α → κ} {l : List α} {a : α} : a ∈ sortByKey key l ↔ a ∈ l :=
  (perm_sortByKey key l).mem_iff

@[simp] theorem length_sortByKey (key : α → κ) (l : List α) :
    (sortByKey key l).length = l.length :=
  (perm_sortByKey key l).length_eq

@[simp] theorem sortByKey_eq_nil {key : α → κ} {l : List α} : sortByKey key l = [] ↔ l = [] := by
  rw [← List.length_eq_zero_iff, length_sortByKey, List.length_eq_zero_iff]

/-- A sorted list is ascending in its key. -/
theorem pairwise_sortByKey (key : α → κ) (l : List α) :
    (sortByKey key l).Pairwise fun a b => key a ≤ key b := by
  have total : Std.Total fun a b : α => key a ≤ key b := ⟨fun a b => le_total (key a) (key b)⟩
  have trans : IsTrans α fun a b => key a ≤ key b := ⟨fun _ _ _ => le_trans⟩
  exact List.pairwise_insertionSort _ l

/-- **A strictly ascending list is determined by its members.** -/
theorem eq_of_ascending_of_mem_iff {key : α → κ} {l m : List α}
    (hl : l.Pairwise fun a b => key a < key b) (hm : m.Pairwise fun a b => key a < key b)
    (h : ∀ a, a ∈ l ↔ a ∈ m) : l = m := by
  have hln : l.Nodup := hl.imp fun hab => ne_of_apply_ne key hab.ne
  have hmn : m.Nodup := hm.imp fun hab => ne_of_apply_ne key hab.ne
  have hperm : l.Perm m := (List.perm_ext_iff_of_nodup hln hmn).mpr h
  have hasymm : ∀ a b, a ∈ l → b ∈ m → key a < key b → key b < key a → a = b :=
    fun a b _ _ hab hba => absurd hab hba.asymm
  exact hperm.eq_of_pairwise hasymm hl hm

/-- The members of a strictly ascending list are told apart by their keys. -/
theorem injOn_of_ascending {key : α → κ} {l : List α} (h : l.Pairwise fun a b => key a < key b) :
    Set.InjOn key {a | a ∈ l} := by
  induction l with
  | nil => exact fun a ha => absurd ha List.not_mem_nil
  | cons x l ih =>
      obtain ⟨hx, hl⟩ := List.pairwise_cons.mp h
      intro a ha b hb heq
      rcases List.mem_cons.mp ha with hax | ha <;> rcases List.mem_cons.mp hb with hbx | hb
      · exact hax.trans hbx.symm
      · exact absurd (hax ▸ heq) (hx b hb).ne
      · exact absurd (hbx ▸ heq) (hx a ha).ne'
      · exact ih hl ha hb heq

/-- If no two positions of a list share a key, its stable sort is strictly ascending. -/
theorem pairwise_lt_sortByKey {key : α → κ} {l : List α}
    (h : l.Pairwise fun a b => key a ≠ key b) :
    (sortByKey key l).Pairwise fun a b => key a < key b := by
  have hne : (sortByKey key l).Pairwise fun a b => key a ≠ key b :=
    (perm_sortByKey key l).pairwise_iff (fun hab => hab.symm) |>.mpr h
  exact (pairwise_sortByKey key l).imp₂ (fun _ _ hle hab => lt_of_le_of_ne hle hab) hne

/-- **A list ascending in its key** is the part below a key followed by the rest. -/
theorem filter_lt_append_filter_ge {key : α → κ} {l : List α}
    (h : l.Pairwise fun a b => key a ≤ key b) (k : κ) :
    (l.filter fun a => key a < k) ++ (l.filter fun a => k ≤ key a) = l := by
  induction l with
  | nil => rfl
  | cons a l ih =>
      obtain ⟨ha, hl⟩ := List.pairwise_cons.mp h
      by_cases hlt : key a < k
      · rw [List.filter_cons, if_pos (decide_eq_true hlt), List.filter_cons,
          if_neg (by simpa using hlt), List.cons_append, ih hl]
      · have hge : ∀ b ∈ a :: l, k ≤ key b :=
          List.forall_mem_cons.mpr ⟨not_lt.mp hlt, fun b hb => (not_lt.mp hlt).trans (ha b hb)⟩
        rw [List.filter_eq_nil_iff.mpr fun b hb hb' =>
            absurd (of_decide_eq_true hb') (not_lt.mpr (hge b hb)),
          List.filter_eq_self.mpr fun b hb => decide_eq_true (hge b hb), List.nil_append]

/-- The range of a key in an ascending list, from the number of elements below it. -/
theorem drop_countP_lt {key : α → κ} {l : List α} (h : l.Pairwise fun a b => key a ≤ key b)
    (k : κ) : l.drop (l.countP fun a => key a < k) = l.filter fun a => k ≤ key a := by
  have hdrop : ((l.filter fun a => key a < k) ++ l.filter fun a => k ≤ key a).drop
      (l.filter fun a => key a < k).length = l.filter fun a => k ≤ key a := List.drop_left
  rw [filter_lt_append_filter_ge h k] at hdrop
  rw [List.countP_eq_length_filter]
  exact hdrop

/-- The keys of an ascending list are determined by the keys of the list it permutes. -/
theorem map_key_sortByKey_congr {key : α → κ} {l m : List α}
    (h : (l.map key).Perm (m.map key)) :
    (sortByKey key l).map key = (sortByKey key m).map key := by
  have hperm : ((sortByKey key l).map key).Perm ((sortByKey key m).map key) :=
    ((perm_sortByKey key l).map key).trans (h.trans ((perm_sortByKey key m).map key).symm)
  have hsorted : ∀ l : List α, ((sortByKey key l).map key).Pairwise (· ≤ ·) := fun l =>
    List.pairwise_map.mpr (pairwise_sortByKey key l)
  exact hperm.eq_of_pairwise (fun _ _ _ _ => le_antisymm) (hsorted l) (hsorted m)

/-- At most as many elements are below an element of an ascending list as stand before it. -/
theorem countP_lt_getElem_le {key : α → κ} {l : List α} (h : l.Pairwise fun a b => key a ≤ key b)
    {i : ℕ} (hi : i < l.length) : (l.countP fun a => key a < key l[i]) ≤ i := by
  have hdrop : ((l.drop i).countP fun a => key a < key l[i]) = 0 := by
    refine List.countP_eq_zero.mpr fun a ha hlt => ?_
    have hpair := h.sublist (List.drop_sublist i l)
    rw [List.drop_eq_getElem_cons hi] at hpair ha
    rcases List.mem_cons.mp ha with rfl | ha
    · exact lt_irrefl _ (of_decide_eq_true hlt)
    · exact absurd (of_decide_eq_true hlt) ((List.pairwise_cons.mp hpair).1 a ha).not_gt
  calc (l.countP fun a => key a < key l[i])
      = ((l.take i ++ l.drop i).countP fun a => key a < key l[i]) := by rw [List.take_append_drop]
    _ = (l.take i).countP fun a => key a < key l[i] := by rw [List.countP_append, hdrop, Nat.add_zero]
    _ ≤ (l.take i).length := List.countP_le_length
    _ ≤ i := List.length_take_le i l

/-- **Stability.** The first element of a list stands in front of all others of its key. -/
theorem getElem?_sortByKey_cons (key : α → κ) (a : α) (l : List α) :
    (sortByKey key (a :: l))[l.countP fun b => key b < key a]? = some a := by
  have hinsert : ∀ s : List α, (s.Pairwise fun a b => key a ≤ key b) →
      (s.orderedInsert (fun a b => key a ≤ key b) a)[s.countP fun b => key b < key a]? =
        some a := by
    intro s
    induction s with
    | nil => intro _; rfl
    | cons b s ih =>
        intro hs
        obtain ⟨hb, hs⟩ := List.pairwise_cons.mp hs
        rw [List.orderedInsert_cons]
        by_cases hle : key a ≤ key b
        · have hzero : ((b :: s).countP fun b => key b < key a) = 0 := by
            refine List.countP_eq_zero.mpr fun c hc hlt => ?_
            refine absurd (of_decide_eq_true hlt) (not_lt.mpr ?_)
            rcases List.mem_cons.mp hc with rfl | hc
            · exact hle
            · exact hle.trans (hb c hc)
          rw [if_pos hle, hzero]
          rfl
        · have hlt : decide (key b < key a) = true := decide_eq_true (not_le.mp hle)
          have hsucc : ((b :: s).countP fun b => key b < key a) =
              (s.countP fun b => key b < key a) + 1 := List.countP_cons_of_pos hlt
          rw [if_neg hle, hsucc, List.getElem?_cons_succ]
          exact ih hs
  have hcount := (perm_sortByKey key l).countP_eq fun b => decide (key b < key a)
  rw [← hcount]
  exact hinsert _ (pairwise_sortByKey key l)

/-! ## The first element of each key -/

section First

variable {γ : Type*} [DecidableEq γ]

/-- Keep the elements whose key is not in `seen` and has not been met earlier in the list. -/
def firstByKey (key : α → γ) : List γ → List α → List α
  | _, [] => []
  | seen, a :: l =>
      if key a ∈ seen then firstByKey key seen l else a :: firstByKey key (key a :: seen) l

@[simp] theorem firstByKey_nil (key : α → γ) (seen : List γ) : firstByKey key seen [] = [] := rfl

theorem firstByKey_cons (key : α → γ) (seen : List γ) (a : α) (l : List α) :
    firstByKey key seen (a :: l) =
      if key a ∈ seen then firstByKey key seen l else a :: firstByKey key (key a :: seen) l := rfl

/-- Only elements of the list are kept. -/
theorem mem_of_mem_firstByKey {key : α → γ} {seen : List γ} {l : List α} {a : α}
    (h : a ∈ firstByKey key seen l) : a ∈ l := by
  induction l generalizing seen with
  | nil => simp at h
  | cons b l ih =>
      rw [firstByKey_cons] at h
      split at h
      · exact List.mem_cons_of_mem b (ih h)
      · rcases List.mem_cons.mp h with rfl | h
        · exact List.mem_cons_self
        · exact List.mem_cons_of_mem b (ih h)

/-- No kept element has a key that was already seen. -/
theorem key_notMem_of_mem_firstByKey {key : α → γ} {seen : List γ} {l : List α} {a : α}
    (h : a ∈ firstByKey key seen l) : key a ∉ seen := by
  induction l generalizing seen with
  | nil => simp at h
  | cons b l ih =>
      rw [firstByKey_cons] at h
      split at h
      · exact ih h
      · rename_i hb
        rcases List.mem_cons.mp h with rfl | h
        · exact hb
        · exact fun ha => ih h (List.mem_cons_of_mem _ ha)

/-- Kept elements have pairwise different keys. -/
theorem pairwise_firstByKey (key : α → γ) (seen : List γ) (l : List α) :
    (firstByKey key seen l).Pairwise fun a b => key a ≠ key b := by
  induction l generalizing seen with
  | nil => exact List.Pairwise.nil
  | cons b l ih =>
      rw [firstByKey_cons]
      split
      · exact ih seen
      · refine List.Pairwise.cons (fun c hc heq => ?_) (ih _)
        exact key_notMem_of_mem_firstByKey hc (heq ▸ List.mem_cons_self)

/-- Every key of the list that was not seen before has a kept representative. -/
theorem exists_mem_firstByKey {key : α → γ} {seen : List γ} {l : List α} {a : α}
    (ha : a ∈ l) (hseen : key a ∉ seen) : ∃ b ∈ firstByKey key seen l, key b = key a := by
  induction l generalizing seen with
  | nil => simp at ha
  | cons c l ih =>
      rw [firstByKey_cons]
      by_cases hc : key c ∈ seen
      · rw [if_pos hc]
        rcases List.mem_cons.mp ha with rfl | ha
        · exact absurd hc hseen
        · exact ih ha hseen
      · rw [if_neg hc]
        by_cases hac : key c = key a
        · exact ⟨c, List.mem_cons_self, hac⟩
        · have ha' : a ∈ l := (List.mem_cons.mp ha).resolve_left fun h => hac (h ▸ rfl)
          have hseen' : key a ∉ key c :: seen := by
            simp only [List.mem_cons, not_or]
            exact ⟨fun h => hac h.symm, hseen⟩
          obtain ⟨b, hb, hkey⟩ := ih ha' hseen'
          exact ⟨b, List.mem_cons_of_mem _ hb, hkey⟩

/-- Every key of the list has a kept representative when none was seen. -/
theorem exists_mem_firstByKey_nil (key : α → γ) {l : List α} {a : α} (ha : a ∈ l) :
    ∃ b ∈ firstByKey key [] l, key b = key a :=
  exists_mem_firstByKey ha List.not_mem_nil

/-- **The kept representative stands first.** If the list is ordered by `r`, a kept element is
`r`-before every element of the list with the same key, itself apart. -/
theorem rel_of_mem_firstByKey {key : α → γ} {seen : List γ} {l : List α} {r : α → α → Prop}
    (hl : l.Pairwise r) {a b : α} (ha : a ∈ firstByKey key seen l) (hb : b ∈ l)
    (hkey : key b = key a) : b = a ∨ r a b := by
  induction l generalizing seen with
  | nil => simp at hb
  | cons c l ih =>
      rw [List.pairwise_cons] at hl
      rw [firstByKey_cons] at ha
      split at ha
      · rename_i hc
        rcases List.mem_cons.mp hb with rfl | hb
        · exact absurd (hkey ▸ hc) (key_notMem_of_mem_firstByKey ha)
        · exact ih hl.2 ha hb
      · rcases List.mem_cons.mp ha with rfl | ha
        · rcases List.mem_cons.mp hb with rfl | hb
          · exact Or.inl rfl
          · exact Or.inr (hl.1 b hb)
        · rcases List.mem_cons.mp hb with rfl | hb
          · exact absurd (hkey ▸ List.mem_cons_self) (key_notMem_of_mem_firstByKey ha)
          · exact ih hl.2 ha hb

/-- Seen keys matter only as far as elements of the list have them. -/
theorem firstByKey_congr {key : α → γ} {seen seen' : List γ} {l : List α}
    (h : ∀ a ∈ l, (key a ∈ seen ↔ key a ∈ seen')) :
    firstByKey key seen l = firstByKey key seen' l := by
  induction l generalizing seen seen' with
  | nil => rfl
  | cons b l ih =>
      have hb := h b List.mem_cons_self
      have hl : ∀ a ∈ l, (key a ∈ seen ↔ key a ∈ seen') := fun a ha =>
        h a (List.mem_cons_of_mem b ha)
      rw [firstByKey_cons, firstByKey_cons]
      by_cases hseen : key b ∈ seen
      · rw [if_pos hseen, if_pos (hb.mp hseen)]
        exact ih hl
      · rw [if_neg hseen, if_neg fun h => hseen (hb.mpr h)]
        congr 1
        refine ih fun a ha => ?_
        simp only [List.mem_cons, hl a ha]

/-- Which elements are kept depends on their keys alone. -/
theorem map_firstByKey (key : α → γ) (seen : List γ) (l : List α) :
    (firstByKey key seen l).map key = firstByKey id seen (l.map key) := by
  induction l generalizing seen with
  | nil => rfl
  | cons b l ih =>
      rw [firstByKey_cons, List.map_cons, firstByKey_cons]
      by_cases hb : key b ∈ seen
      · rw [if_pos hb, if_pos (show id (key b) ∈ seen from hb)]
        exact ih seen
      · rw [if_neg hb, if_neg (show id (key b) ∉ seen from hb), List.map_cons, ih]
        rfl

/-- The second of two lists is filtered by the keys of the first. -/
theorem firstByKey_append (key : α → γ) (seen : List γ) (l m : List α) :
    firstByKey key seen (l ++ m) = firstByKey key seen l ++ firstByKey key (l.map key ++ seen) m := by
  induction l generalizing seen with
  | nil => rfl
  | cons b l ih =>
      rw [List.cons_append, firstByKey_cons, firstByKey_cons]
      split
      · rename_i hb
        rw [ih]
        congr 1
        refine firstByKey_congr fun a _ => ?_
        simp only [List.map_cons, List.cons_append, List.mem_cons, List.mem_append]
        constructor
        · exact Or.inr
        · rintro (heq | h)
          · exact Or.inr (heq ▸ hb)
          · exact h
      · rw [ih, List.cons_append]
        congr 2
        refine firstByKey_congr fun a _ => ?_
        simp only [List.map_cons, List.cons_append, List.mem_cons, List.mem_append]
        tauto

/-- A list without repetitions only loses what was seen. -/
theorem firstByKey_of_nodup {seen l : List γ} (h : l.Nodup) :
    firstByKey id seen l = l.filter fun a => a ∉ seen := by
  induction l generalizing seen with
  | nil => rfl
  | cons b l ih =>
      obtain ⟨hb, hl⟩ := List.nodup_cons.mp h
      rw [firstByKey_cons, List.filter_cons]
      by_cases hseen : b ∈ seen
      · rw [if_pos (show id b ∈ seen from hseen), if_neg (by simpa using hseen)]
        exact ih hl
      · rw [if_neg (show id b ∉ seen from hseen), if_pos (by simpa using hseen), ← ih hl]
        congr 1
        refine firstByKey_congr fun a ha => ?_
        have hne : a ≠ b := fun heq => hb (heq ▸ ha)
        simp [hne]

/-- What is kept of a list of keys: everything that was not seen. -/
theorem mem_firstByKey_id {seen l : List γ} {a : γ} :
    a ∈ firstByKey id seen l ↔ a ∈ l ∧ a ∉ seen := by
  constructor
  · exact fun h => ⟨mem_of_mem_firstByKey h, key_notMem_of_mem_firstByKey h⟩
  · rintro ⟨hl, hseen⟩
    have hseen' : id a ∉ seen := hseen
    obtain ⟨b, hb, rfl⟩ := exists_mem_firstByKey hl hseen'
    exact hb

/-- No key is kept twice. -/
theorem nodup_firstByKey_id (seen l : List γ) : (firstByKey id seen l).Nodup :=
  pairwise_firstByKey id seen l

/-- Repetitions may be dropped first. -/
theorem firstByKey_firstByKey {seen seen' : List γ} (hsub : seen' ⊆ seen) (l : List γ) :
    firstByKey id seen (firstByKey id seen' l) = firstByKey id seen l := by
  induction l generalizing seen seen' with
  | nil => rfl
  | cons b l ih =>
      rw [firstByKey_cons, firstByKey_cons]
      by_cases hb : id b ∈ seen'
      · rw [if_pos hb, if_pos (hsub hb), ih hsub]
      · rw [if_neg hb, firstByKey_cons]
        split
        · rename_i hseen
          exact ih (List.cons_subset.mpr ⟨hseen, hsub⟩)
        · rw [ih (List.cons_subset_cons _ hsub)]

/-- The kept elements stand in the order of the list. -/
theorem firstByKey_sublist (key : α → γ) (seen : List γ) (l : List α) :
    (firstByKey key seen l).Sublist l := by
  induction l generalizing seen with
  | nil => exact List.Sublist.refl []
  | cons b l ih =>
      rw [firstByKey_cons]
      split
      · exact (ih seen).cons b
      · exact (ih (key b :: seen)).cons_cons b

/-- Drop an element when it has the key of the last one kept: `dedup_by_key`. -/
def dedupByKey (key : α → γ) (l : List α) : List α :=
  l.destutter fun a b => key a ≠ key b

end First

/-- **On a list ascending in its key, dropping repeated neighbours keeps the first of each key.** -/
theorem dedupByKey_eq_firstByKey {key : α → κ} {l : List α}
    (h : l.Pairwise fun a b => key a ≤ key b) : dedupByKey key l = firstByKey key [] l := by
  suffices hgo : ∀ (m : List α) (a : α), ((a :: m).Pairwise fun a b => key a ≤ key b) →
      m.destutter' (fun a b => key a ≠ key b) a = a :: firstByKey key [key a] m by
    cases l with
    | nil => rfl
    | cons a m =>
        rw [dedupByKey, List.destutter_cons', hgo m a h, firstByKey_cons, if_neg List.not_mem_nil]
  intro m
  induction m with
  | nil => intro a _; rfl
  | cons b m ih =>
      intro a ham
      obtain ⟨ha, hbm⟩ := List.pairwise_cons.mp ham
      obtain ⟨hb, hm⟩ := List.pairwise_cons.mp hbm
      rw [List.destutter'_cons, firstByKey_cons]
      by_cases hab : key a = key b
      · rw [if_neg (not_not.mpr hab), if_pos (by simp [hab])]
        refine ih a (List.pairwise_cons.mpr ⟨fun c hc => ha c (List.mem_cons_of_mem b hc), hm⟩)
      · rw [if_pos hab, if_neg (by simpa using Ne.symm hab), ih b hbm]
        congr 2
        refine firstByKey_congr fun c hc => ?_
        -- the keys after `b` are beyond that of `a`
        have hlt : key a < key c :=
          (lt_of_le_of_ne (ha b List.mem_cons_self) hab).trans_le (hb c hc)
        simp [hlt.ne']

/-! ## Ordered maps as ascending lists -/

section Map

variable {key : α → κ}

variable (key) in
/-- Insert into the ascending list of a map's values: an equal key is replaced. -/
def insertByKey (e : α) : List α → List α
  | [] => [e]
  | x :: l =>
      if key e < key x then e :: x :: l
      else if key e = key x then e :: l
      else x :: insertByKey e l

theorem insertByKey_cons (e x : α) (l : List α) :
    insertByKey key e (x :: l) =
      if key e < key x then e :: x :: l
      else if key e = key x then e :: l
      else x :: insertByKey key e l := rfl

/-- The inserted element is in the list. -/
theorem mem_insertByKey_self (e : α) (l : List α) : e ∈ insertByKey key e l := by
  induction l with
  | nil => exact List.mem_cons_self
  | cons x l ih =>
      rw [insertByKey_cons]
      split
      · exact List.mem_cons_self
      · split
        · exact List.mem_cons_self
        · exact List.mem_cons_of_mem x ih

/-- Insertion adds nothing but the inserted element. -/
theorem mem_of_mem_insertByKey {e r : α} {l : List α} (h : r ∈ insertByKey key e l) :
    r = e ∨ r ∈ l := by
  induction l with
  | nil => exact Or.inl (List.mem_singleton.mp h)
  | cons x l ih =>
      rw [insertByKey_cons] at h
      split at h
      · exact List.mem_cons.mp h
      · split at h
        · exact (List.mem_cons.mp h).imp_right (List.mem_cons_of_mem x)
        · rcases List.mem_cons.mp h with rfl | h
          · exact Or.inr List.mem_cons_self
          · exact (ih h).imp_right (List.mem_cons_of_mem x)

/-- An element with another key survives an insertion. -/
theorem mem_insertByKey_of_ne {e r : α} {l : List α} (hr : r ∈ l) (hne : key r ≠ key e) :
    r ∈ insertByKey key e l := by
  induction l with
  | nil => exact absurd hr List.not_mem_nil
  | cons x l ih =>
      rw [insertByKey_cons]
      split
      · exact List.mem_cons_of_mem e hr
      · rcases List.mem_cons.mp hr with rfl | hr
        · split
          · rename_i heq
            exact absurd heq.symm hne
          · exact List.mem_cons_self
        · split
          · exact List.mem_cons_of_mem e hr
          · exact List.mem_cons_of_mem x (ih hr)

/-- Inserting an element whose key is new adds exactly that element. -/
theorem mem_insertByKey {e r : α} {l : List α} (hnew : ∀ x ∈ l, key x ≠ key e) :
    r ∈ insertByKey key e l ↔ r ∈ l ∨ r = e := by
  constructor
  · intro h
    exact (mem_of_mem_insertByKey h).symm
  · rintro (h | rfl)
    · exact mem_insertByKey_of_ne h (hnew r h)
    · exact mem_insertByKey_self r l

/-- Inserting an element whose key is new prolongs the list by it. -/
theorem perm_insertByKey {e : α} {l : List α} (hnew : ∀ x ∈ l, key x ≠ key e) :
    (insertByKey key e l).Perm (e :: l) := by
  induction l with
  | nil => exact List.Perm.refl _
  | cons x l ih =>
      rw [insertByKey_cons]
      split
      · exact List.Perm.refl _
      · rw [if_neg (hnew x List.mem_cons_self).symm]
        exact ((ih fun y hy => hnew y (List.mem_cons_of_mem x hy)).cons x).trans (List.Perm.swap e x l)

/-- Insertion keeps the list strictly ascending. -/
theorem pairwise_insertByKey {e : α} {l : List α} (h : l.Pairwise fun a b => key a < key b) :
    (insertByKey key e l).Pairwise fun a b => key a < key b := by
  induction l with
  | nil => exact List.pairwise_singleton _ e
  | cons x l ih =>
      obtain ⟨hx, hl⟩ := List.pairwise_cons.mp h
      rw [insertByKey_cons]
      split
      · rename_i hlt
        refine List.Pairwise.cons (fun y hy => ?_) h
        rcases List.mem_cons.mp hy with rfl | hy
        · exact hlt
        · exact hlt.trans (hx y hy)
      · rename_i hle
        split
        · rename_i heq
          exact List.Pairwise.cons (fun y hy => heq ▸ hx y hy) hl
        · rename_i hne
          refine List.Pairwise.cons (fun y hy => ?_) (ih hl)
          rcases mem_of_mem_insertByKey hy with rfl | hy
          · exact lt_of_le_of_ne (not_lt.mp hle) fun heq => hne heq.symm
          · exact hx y hy

variable {β : Type*}

/-- Append to the list kept under a key of an ordered map of lists. -/
def extendGroup (k : κ) (xs : List β) : List (κ × List β) → List (κ × List β)
  | [] => [(k, xs)]
  | (k', ys) :: groups =>
      if k < k' then (k, xs) :: (k', ys) :: groups
      else if k = k' then (k', ys ++ xs) :: groups
      else (k', ys) :: extendGroup k xs groups

theorem extendGroup_nil (k : κ) (xs : List β) : extendGroup k xs [] = [(k, xs)] := rfl

theorem extendGroup_cons (k k' : κ) (xs ys : List β) (groups : List (κ × List β)) :
    extendGroup k xs ((k', ys) :: groups) =
      if k < k' then (k, xs) :: (k', ys) :: groups
      else if k = k' then (k', ys ++ xs) :: groups
      else (k', ys) :: extendGroup k xs groups := rfl

/-- The lists of the map hold what they held and what was appended. -/
theorem flatMap_extendGroup (k : κ) (xs : List β) (groups : List (κ × List β)) :
    ((extendGroup k xs groups).flatMap Prod.snd).Perm (groups.flatMap Prod.snd ++ xs) := by
  induction groups with
  | nil => simp [extendGroup_nil]
  | cons group groups ih =>
      obtain ⟨k', ys⟩ := group
      rw [extendGroup_cons]
      split
      · rw [List.flatMap_cons]
        exact List.perm_append_comm
      · split
        · simp only [List.flatMap_cons, List.append_assoc]
          exact List.perm_append_comm.append_left ys
        · simp only [List.flatMap_cons, List.append_assoc]
          exact ih.append_left ys

/-- The keys of a map of lists ascend, and each list holds elements of its own key only. -/
structure GroupedBy (f : β → κ) (groups : List (κ × List β)) : Prop where
  ascending : groups.Pairwise fun group group' => group.1 < group'.1
  key : ∀ group ∈ groups, ∀ x ∈ group.2, f x = group.1

theorem groupedBy_nil (f : β → κ) : GroupedBy f [] :=
  ⟨List.Pairwise.nil, fun _ h => absurd h List.not_mem_nil⟩

/-- Appending to a list adds no key but that of the list. -/
theorem key_of_mem_extendGroup {k : κ} {xs : List β} {groups : List (κ × List β)}
    {group : κ × List β} (h : group ∈ extendGroup k xs groups) :
    group.1 = k ∨ ∃ group' ∈ groups, group'.1 = group.1 := by
  induction groups with
  | nil =>
      rw [extendGroup_nil, List.mem_singleton] at h
      exact Or.inl (congrArg Prod.fst h)
  | cons head groups ih =>
      obtain ⟨k', ys⟩ := head
      rw [extendGroup_cons] at h
      split at h
      · rcases List.mem_cons.mp h with rfl | h
        · exact Or.inl rfl
        · exact Or.inr ⟨group, h, rfl⟩
      · split at h
        · rename_i heq
          rcases List.mem_cons.mp h with rfl | h
          · exact Or.inl heq.symm
          · exact Or.inr ⟨group, List.mem_cons_of_mem _ h, rfl⟩
        · rcases List.mem_cons.mp h with rfl | h
          · exact Or.inr ⟨_, List.mem_cons_self, rfl⟩
          · refine (ih h).imp_right ?_
            rintro ⟨group', hgroup', hkey⟩
            exact ⟨group', List.mem_cons_of_mem _ hgroup', hkey⟩

/-- **Appending elements of a key to its list** keeps the map grouped. -/
theorem GroupedBy.extendGroup {f : β → κ} {k : κ} {xs : List β} {groups : List (κ × List β)}
    (h : GroupedBy f groups) (hxs : ∀ x ∈ xs, f x = k) : GroupedBy f (extendGroup k xs groups) := by
  induction groups with
  | nil =>
      refine ⟨List.pairwise_singleton _ _, fun group hgroup => ?_⟩
      rw [extendGroup_nil, List.mem_singleton] at hgroup
      exact hgroup ▸ hxs
  | cons head groups ih =>
      obtain ⟨k', ys⟩ := head
      obtain ⟨hhead, hgroups⟩ := List.pairwise_cons.mp h.ascending
      obtain ⟨hys, hkeys⟩ := List.forall_mem_cons.mp h.key
      rw [extendGroup_cons]
      split
      · -- a new first group
        rename_i hlt
        refine ⟨List.pairwise_cons.mpr ⟨?_, h.ascending⟩, List.forall_mem_cons.mpr ⟨hxs, h.key⟩⟩
        exact List.forall_mem_cons.mpr ⟨hlt, fun group hgroup => hlt.trans (hhead group hgroup)⟩
      · split
        · -- the first group grows
          rename_i heq
          refine ⟨List.pairwise_cons.mpr ⟨hhead, hgroups⟩, List.forall_mem_cons.mpr ⟨?_, hkeys⟩⟩
          intro x hx
          rcases List.mem_append.mp hx with hx | hx
          · exact hys x hx
          · exact (hxs x hx).trans heq
        · -- a later group grows or is new; its key lies behind the first one anyway
          rename_i hnlt hne
          have hlt : k' < k := lt_of_le_of_ne (not_lt.mp hnlt) fun heq => hne heq.symm
          have hrec := ih ⟨hgroups, hkeys⟩
          refine ⟨List.pairwise_cons.mpr ⟨?_, hrec.ascending⟩, List.forall_mem_cons.mpr ⟨hys, hrec.key⟩⟩
          intro group hgroup
          rcases key_of_mem_extendGroup hgroup with hkey | ⟨group', hgroup', hkey⟩
          · exact hkey ▸ hlt
          · exact hkey ▸ hhead group' hgroup'

/-- The list under a key holds the elements of that key. -/
theorem GroupedBy.perm_filter {f : β → κ} {groups : List (κ × List β)} (h : GroupedBy f groups)
    {group : κ × List β} (hgroup : group ∈ groups) :
    group.2.Perm ((groups.flatMap Prod.snd).filter fun x => f x = group.1) := by
  induction groups with
  | nil => exact absurd hgroup List.not_mem_nil
  | cons head groups ih =>
      obtain ⟨hhead, hgroups⟩ := List.pairwise_cons.mp h.ascending
      obtain ⟨hkey, hkeys⟩ := List.forall_mem_cons.mp h.key
      rw [List.flatMap_cons, List.filter_append]
      rcases List.mem_cons.mp hgroup with rfl | hgroup
      · have hrest : ((groups.flatMap Prod.snd).filter fun x => f x = group.1) = [] := by
          refine List.filter_eq_nil_iff.mpr fun x hx heq => ?_
          obtain ⟨group', hgroup', hx⟩ := List.mem_flatMap.mp hx
          have hlt := hhead group' hgroup'
          rw [← hkeys group' hgroup' x hx, of_decide_eq_true heq] at hlt
          exact lt_irrefl _ hlt
        rw [hrest, List.append_nil, List.filter_eq_self.mpr fun x hx => decide_eq_true (hkey x hx)]
      · have hnone : (head.2.filter fun x => f x = group.1) = [] := by
          refine List.filter_eq_nil_iff.mpr fun x hx heq => ?_
          have hlt := hhead group hgroup
          rw [← hkey x hx, of_decide_eq_true heq] at hlt
          exact lt_irrefl _ hlt
        rw [hnone, List.nil_append]
        exact ih ⟨hgroups, hkeys⟩ hgroup

end Map

end KeyedSort
