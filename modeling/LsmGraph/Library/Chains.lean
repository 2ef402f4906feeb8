import Mathlib.Data.Finset.Insert
import Mathlib.Data.Fintype.EquivFin

/-! # Chains

A step leads to the next element or ends with a result, so that from each element one chain leads on,
which ends or goes round in a cycle. A chain that ends has one length and one result
(`EndsAfter.unique`). A walk that remembers what it has met comes to the result of a chain that ends
(`walk_of_endsAfter`), and over finitely many elements it also stops on one that does not
(`walk_of_not_ends`). -/

namespace Chains

variable {α β : Type*} (step : α → α ⊕ β)

/-- The chain from an element ends after some steps, with a result. -/
inductive EndsAfter : Nat → α → β → Prop
  | here {a : α} {b : β} (h : step a = .inr b) : EndsAfter 0 a b
  | next {n : Nat} {a a' : α} {b : β} (h : step a = .inl a') (hrest : EndsAfter n a' b) :
      EndsAfter (n + 1) a b

def EndsWith (a : α) (b : β) : Prop := ∃ n, EndsAfter step n a b

def Ends (a : α) : Prop := ∃ b, EndsWith step a b

variable {step} {a a' : α} {b c : β} {m n : Nat}

theorem EndsAfter.unique (h : EndsAfter step n a b) (h' : EndsAfter step m a c) : n = m ∧ b = c := by
  induction h generalizing m with
  | here hstep =>
      cases h' with
      | here hstep' => exact ⟨rfl, Sum.inr.inj (hstep.symm.trans hstep')⟩
      | next hstep' _ => exact absurd (hstep.symm.trans hstep') nofun
  | next hstep _ ih =>
      cases h' with
      | here hstep' => exact absurd (hstep.symm.trans hstep') nofun
      | next hstep' hrest' =>
          obtain rfl := Sum.inl.inj (hstep.symm.trans hstep')
          obtain ⟨rfl, rfl⟩ := ih hrest'
          exact ⟨rfl, rfl⟩

theorem EndsWith.unique (h : EndsWith step a b) (h' : EndsWith step a c) : b = c := by
  obtain ⟨n, hn⟩ := h
  obtain ⟨m, hm⟩ := h'
  exact (hn.unique hm).2

theorem endsWith_of_inr (h : step a = .inr b) : EndsWith step a b := ⟨0, .here h⟩

theorem endsWith_of_inl (h : step a = .inl a') : EndsWith step a b ↔ EndsWith step a' b := by
  constructor
  · rintro ⟨n, hends⟩
    cases hends with
    | here hstep => exact absurd (h.symm.trans hstep) nofun
    | next hstep hrest =>
        obtain rfl := Sum.inl.inj (h.symm.trans hstep)
        exact ⟨_, hrest⟩
  · rintro ⟨n, hrest⟩
    exact ⟨n + 1, .next h hrest⟩

theorem ends_of_inl (h : step a = .inl a') : Ends step a ↔ Ends step a' :=
  exists_congr fun _ => endsWith_of_inl h

/-- An element that leads back to itself. -/
theorem not_ends_of_self (h : step a = .inl a) : ¬ Ends step a := by
  rintro ⟨b, n, hn⟩
  exact absurd (hn.unique (.next h hn)).1 (Nat.succ_ne_self n).symm

/-! ## Chains that correspond -/

section Map

variable {α' β' : Type*} {step' : α' → α' ⊕ β'} {f : α → α'} {g : β → β'} {P : α → Prop}

/-- Chains of corresponding steps end alike. -/
theorem endsWith_map_iff (hclosed : ∀ a a', P a → step a = .inl a' → P a')
    (hstep : ∀ a, P a → step' (f a) = (step a).map f g) (ha : P a) {c : β'} :
    EndsWith step' (f a) c ↔ ∃ b, EndsWith step a b ∧ g b = c := by
  constructor
  · rintro ⟨n, h⟩
    induction n generalizing a with
    | zero =>
        cases h with
        | here hhere =>
            rw [hstep a ha] at hhere
            cases hcase : step a with
            | inl a' =>
                rw [hcase] at hhere
                exact absurd hhere nofun
            | inr b =>
                rw [hcase] at hhere
                exact ⟨b, endsWith_of_inr hcase, Sum.inr.inj hhere⟩
    | succ n ih =>
        cases h with
        | next hnext hrest =>
            rw [hstep a ha] at hnext
            cases hcase : step a with
            | inl a' =>
                rw [hcase] at hnext
                obtain rfl := Sum.inl.inj hnext
                obtain ⟨b, hb, hgb⟩ := ih (hclosed a a' ha hcase) hrest
                exact ⟨b, (endsWith_of_inl hcase).mpr hb, hgb⟩
            | inr b =>
                rw [hcase] at hnext
                exact absurd hnext nofun
  · rintro ⟨b, ⟨n, h⟩, rfl⟩
    induction h with
    | here hhere => exact endsWith_of_inr (by rw [hstep _ ha, hhere]; rfl)
    | next hnext _ ih =>
        refine (endsWith_of_inl ?_).mpr (ih (hclosed _ _ ha hnext))
        rw [hstep _ ha, hnext]
        rfl

end Map

/-! ## Walking along a chain -/

variable [DecidableEq α]

/-- Walk on until the chain ends, or comes back to an element met before; `none` when the fuel is used
up. -/
def walk (step : α → α ⊕ β) : Nat → α → Finset α → Option (Option β)
  | 0, _, _ => none
  | fuel + 1, a, seen =>
      if a ∈ seen then some none
      else
        match step a with
        | .inr b => some (some b)
        | .inl a' => walk step fuel a' (insert a seen)

/-- **A chain that ends**: what was met before it lies further from the end. -/
theorem walk_of_endsAfter (h : EndsAfter step n a b) {seen : Finset α}
    (hseen : ∀ s ∈ seen, ∃ m c, EndsAfter step m s c ∧ n < m) {fuel : Nat} (hfuel : n < fuel) :
    walk step fuel a seen = some (some b) := by
  induction fuel generalizing n a seen with
  | zero => exact absurd hfuel (Nat.not_lt_zero n)
  | succ fuel ih =>
      -- a chain has one length, so that it cannot come back
      have hnew : a ∉ seen := by
        intro hmem
        obtain ⟨m, c, hm, hlt⟩ := hseen a hmem
        exact hlt.ne (h.unique hm).1
      rw [walk, if_neg hnew]
      cases h with
      | here hstep => rw [hstep]
      | next hstep hrest =>
          rw [hstep]
          refine ih hrest ?_ (Nat.lt_of_succ_lt_succ hfuel)
          intro s hs
          rcases Finset.mem_insert.mp hs with rfl | hs
          · exact ⟨_, b, .next hstep hrest, Nat.lt_succ_self _⟩
          · obtain ⟨m, c, hm, hlt⟩ := hseen s hs
            exact ⟨m, c, hm, (Nat.lt_succ_self _).trans hlt⟩

/-- **A chain that does not end**, of finitely many elements. -/
theorem walk_of_not_ends [Finite α] (h : ¬ Ends step a) (seen : Finset α) :
    ∃ n, ∀ fuel, n < fuel → walk step fuel a seen = some none := by
  have := Fintype.ofFinite α
  obtain ⟨k, hk⟩ : ∃ k, k = (Finset.univ \ seen).card := ⟨_, rfl⟩
  induction k using Nat.strong_induction_on generalizing a seen with
  | _ k ih =>
      by_cases hmem : a ∈ seen
      · refine ⟨0, fun fuel hfuel => ?_⟩
        obtain ⟨fuel, rfl⟩ := Nat.exists_eq_succ_of_ne_zero hfuel.ne'
        rw [walk, if_pos hmem]
      · cases hstep : step a with
        | inr b => exact absurd ⟨b, endsWith_of_inr hstep⟩ h
        | inl a' =>
            -- one element less is left
            have hlt : (Finset.univ \ insert a seen).card < k := by
              rw [hk, Finset.sdiff_insert]
              exact Finset.card_erase_lt_of_mem
                (Finset.mem_sdiff.mpr ⟨Finset.mem_univ a, hmem⟩)
            obtain ⟨n, hn⟩ := ih _ hlt (mt (ends_of_inl hstep).mpr h) (insert a seen) rfl
            refine ⟨n + 1, fun fuel hfuel => ?_⟩
            obtain ⟨fuel, rfl⟩ := Nat.exists_eq_succ_of_ne_zero (Nat.ne_zero_of_lt hfuel)
            rw [walk, if_neg hmem, hstep]
            exact hn fuel (Nat.lt_of_succ_lt_succ hfuel)

/-- **The walk stops** with the result of the chain, or without one if the chain does not end. -/
theorem walk_spec [Finite α] (a : α) :
    ∃ result, (∀ b, result = some b ↔ EndsWith step a b) ∧
      ∃ n, ∀ fuel, n < fuel → walk step fuel a ∅ = some result := by
  by_cases h : Ends step a
  · obtain ⟨b, n, hn⟩ := h
    refine ⟨some b, fun c => ⟨?_, fun hc => congrArg some (EndsWith.unique ⟨n, hn⟩ hc)⟩, n, ?_⟩
    · intro heq
      exact Option.some.inj heq ▸ ⟨n, hn⟩
    · intro fuel hfuel
      exact walk_of_endsAfter hn (fun s hs => absurd hs (Finset.notMem_empty s)) hfuel
  · exact ⟨none, fun b => ⟨nofun, fun hb => absurd ⟨b, hb⟩ h⟩, walk_of_not_ends h ∅⟩

end Chains
